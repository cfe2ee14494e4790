import TLang.Proofs.Classes
import TLang.Proofs.Typing.Bodies

/-! Typing whole programs. The classes are settled when the first body is typed, and stay so; the
verdict on a program is that on all its bodies. -/
namespace TLang

open Registry Analysis Emit List

variable {env' : Env} {m : MethodId} {member : Member} {source : List ClassDecl}

variable {p : Program} {d : MethodDecl} {r r' : Registry} {c : ClassId} {names : String → Prop}
  {env : Env}

namespace Env

theorem Below.placed {Γ : Env} (h : env.Below Γ) (p q : Position) : (env.placed p).Below (Γ.placed q) :=
  ⟨h.interface, h.locals, h.globals⟩

/-- What was typed in a body is an outcome for the environment around it. -/
theorem Outcome.leave {p : Position} {typed bound : Env → Prop} {verdict : Bool → Prop} {log : List Diagnostic}
    (h : (env.placed p).Outcome names typed bound verdict log env') :
    env.Outcome names (fun Γ => typed (Γ.placed p)) bound verdict log (env'.placed env.position) where
  frame := ⟨h.frame.below.placed env.position _, rfl, h.frame.wellFormed.placed _⟩
  faults := h.faults
  typed := fun hLog Γ hBelow _ => h.typed hLog (Γ.placed p) (hBelow.placed env'.position p)
    h.frame.position.symm
  -- Where a body stands is of no account for how it is bound.
  bound := fun Γ hBelow => h.bound Γ ⟨hBelow.interface, hBelow.locals, hBelow.globals⟩
  verdict := h.verdict

end Env

namespace Analysis

variable {α β : Type}

/-- Typing a body at a position of its own, from which analysis comes back. -/
theorem yields_enter {x : Analysis α} (enter leave : Position → Position) {p : Position}
    {typed bound : α → Env → Prop} {verdict : α → Bool → Prop} (hEnter : enter env.position = p)
    (hLeave : leave p = env.position)
    (hx : Yields x (env.placed p) fun log a env' =>
      (env.placed p).Outcome names (typed a) (bound a) (verdict a) log env') (f : α → β) :
    Yields (do
      modify (·.updatePosition enter)
      let a ← x
      modify (·.updatePosition leave)
      return f a) env fun log b env' => ∃ a, b = f a ∧
        env.Outcome names (fun Γ => typed a (Γ.placed p)) (bound a) (verdict a) log env' := by
  subst hEnter
  refine Yields.bind (Yields.modify _) ?_
  rintro - - env' ⟨rfl, rfl⟩
  refine Yields.bind hx ?_
  intro log a env' hOutcome
  refine Yields.bind (Yields.modify _) ?_
  rintro - - env'' ⟨rfl, rfl⟩
  refine Yields.pure ⟨a, rfl, ?_⟩
  have hBack : env'.updatePosition leave = env'.placed env.position := by
    rw [Env.updatePosition, hOutcome.frame.position]
    exact congrArg env'.placed hLeave
  rw [hBack, append_nil, append_nil, nil_append]
  exact hOutcome.leave

/-- Typing one part after another, each of which has a verdict of its own. -/
theorem yields_mapM {f : α → Analysis β} (inv : Env → Prop) {typed bound : β → Env → Prop}
    {reason : β → Refusal → Prop} {code : Registry → β → Emit Unit}
    (hInv : ∀ {e e'}, inv e → e.Frame names e' → inv e') (as : List α)
    (hStep : ∀ a ∈ as, ∀ e, inv e → Yields (f a) e fun log b e' =>
      e.Outcome names (typed b) (bound b) (fun refused => ∀ types : Registry, types.Settled names →
        Settles false (reason b) refused (code types b)) log e')
    (hWellFormed : env.WellFormed names) (hEnv : inv env) :
    Yields (as.mapM f) env fun log bs env' =>
      env.Outcome names (fun Γ => ∀ b ∈ bs, typed b Γ) (fun Γ => ∀ b ∈ bs, bound b Γ)
        (fun refused => ∀ types : Registry, types.Settled names →
          Settles false (fun r => ∃ b ∈ bs, reason b r) refused (bs.forM (code types))) log env' := by
  induction as generalizing env with
  | nil => exact Yields.pure (.quiet hWellFormed (by simp) (by simp) fun _ _ => .pure ())
  | cons a as ih =>
    rw [mapM_cons]
    refine Yields.bind (hStep a (by simp) env hEnv) ?_
    intro log b env₁ h₁
    refine Yields.bind_pure ((ih (fun a ha => hStep a (by simp [ha])) h₁.frame.wellFormed
      (hInv hEnv h₁.frame)).mono ?_)
    intro log' bs env₂ h₂
    refine (h₁.and h₂).imp (fun Γ h => by simpa using h) (fun Γ h => by simpa using h) ?_
    rintro _ ⟨v, w, rfl, hv, hw⟩ types hTypes
    refine .bind ((hv types hTypes).mono fun r hr => ⟨b, by simp, hr⟩) fun _ => ?_
    refine (hw types hTypes).mono ?_
    rintro r ⟨b', hb', hr⟩
    exact ⟨b', by simp [hb'], hr⟩

end Analysis

section Emission

variable {reason : Refusal → Prop} {refused : Bool} {types : Registry}

theorem Emit.settles_prologue (name : String) (locals : Nat) :
    Settles false reason false (prologue name locals) :=
  .after (.lines _) fun _ => .after (.instrs _) fun _ => iteInduction (fun _ => .instrs _) fun _ => .pure ()

/-- Every class but the root has a parent with a destructor. -/
theorem Emit.settles_parentDestructor (hTypes : types.Settled names) (c : ClassId) :
    Settles false reason false (parentDestructor types c) := by
  rw [parentDestructor]
  split
  case h_1 => exact .pure ()
  case h_2 p hParent =>
    obtain ⟨m, hDestructor⟩ := Option.isSome_iff_exists.mp
      (hTypes.destructor p (hTypes.lineal.parent_lt c p hParent))
    simp only [hDestructor]
    exact .require (.instrs _)

theorem MethodDecl.settles_code (hTypes : types.Settled names) (c : ClassId) (hResolved : d.resolved = some m)
    (hBody : Settles false reason refused (Stmt.codeAll types d.body)) :
    Settles false reason refused (d.code types c) := by
  rw [MethodDecl.code, hResolved]
  refine .require <| .after (.setInMain false) fun _ => ?_
  refine .after (settles_prologue _ _) fun _ => .before hBody fun _ => ?_
  refine .after (.instrs _) fun _ => .after (.label _) fun _ => ?_
  exact iteInduction (fun _ => .after (settles_parentDestructor hTypes c) fun _ => .instrs _) fun _ => .instrs _

theorem MainBlock.settles_code {m : MainBlock}
    (hBody : Settles false reason refused (Stmt.codeAll types m.body)) :
    Settles false reason refused (m.code types) := by
  refine .after (.setInMain true) fun _ => .after (.lines _) fun _ => ?_
  refine .after (settles_prologue _ _) fun _ => .before hBody fun _ => ?_
  exact .after (.instrs _) fun _ => .after (.label _) fun _ => .after (.instrs _) fun _ =>
    .setInMain false

/-- All that precedes the classes of the program is accepted. -/
theorem Emit.settles_dispatchTables (hTypes : types.Settled names) :
    Settles false reason false (dispatchTables types) := by
  refine .after (.lines _) fun _ => .forM _ ?_
  intro c hc
  obtain ⟨i, hi, rfl⟩ := mem_iff_getElem.mp hc
  have hInfo : types.classInfo ⟨i⟩ = types.classes[i] := by
    simp [classInfo, List.getElem?_eq_getElem hi]
  obtain ⟨m, hDestructor⟩ := Option.isSome_iff_exists.mp (hTypes.destructor ⟨i⟩ hi)
  rw [dispatchTable, ← hInfo, hDestructor]
  exact .require <| .after (.lines _) fun _ => .lines _

/-- The routines of the root class can always be compiled in a settled registry, since the root has some. -/
theorem Emit.settles_objectRoutines (hTypes : types.Settled names) :
    Settles false reason false (objectRoutines types) := by
  have hRoot : (types.classInfo object).methods.isEmpty = false := by
    simpa using hTypes.root
  simp only [objectRoutines, hRoot, Bool.false_eq_true, if_false]
  refine .after (.lines _) fun _ => .forM _ fun m _ => ?_
  refine .after (settles_prologue _ _) fun _ => ?_
  exact iteInduction (fun _ => .after (.instrs _) fun _ => .after (.label _) fun _ => .instrs _)
    fun _ => .after (.label _) fun _ => .instrs _

end Emission

theorem Registry.SameInterface.records (h : SameInterface r r') (hRecords : r.Records c m d) :
    r'.Records c m d :=
  ⟨h.classInfo ▸ hRecords.mem, h.length ▸ hRecords.lt, (h.kind m).trans hRecords.kind,
    (h.name m).trans hRecords.name⟩

theorem Member.DeclaredIn.of_interface (hDeclared : member.DeclaredIn r c) (h : SameInterface r r') :
    member.DeclaredIn r' c := by
  cases member with
  | field d => trivial
  | method d =>
    obtain ⟨m, hResolved, hRecords⟩ := hDeclared
    exact ⟨m, hResolved, h.records hRecords⟩

theorem ClassDecl.MembersDeclared.of_interface {d : ClassDecl} (hDeclared : d.MembersDeclared r c)
    (h : SameInterface r r') : d.MembersDeclared r' c :=
  fun member hMember => (hDeclared member hMember).of_interface h

theorem Program.KnownIn.of_interface {d : ClassDecl} (hKnown : KnownIn names d env)
    (h : SameInterface env.types env'.types) : KnownIn names d env' := by
  obtain ⟨c, hLinked, hDeclared⟩ := hKnown
  exact ⟨c, hLinked.of_outline h.outline, hDeclared.of_interface h⟩

/-- A body as it was read comes out well typed. It is outside of loops, so a jump out of one is reported. -/
theorem Stmt.yields_analyzeBody (isConstructor : Bool) (body : List Stmt)
    (hFresh : areFresh body = true) (hCalls : CallBy names (partsOfAll body))
    (h : env.Sound names) : Yields (analyzeBody isConstructor body) env (AllCome names false env) := by
  cases body with
  | nil => exact yields_nil h
  | cons s rest =>
    simp only [areFresh, Bool.and_eq_true] at hFresh
    exact yields_cons h (yields_analyze false isConstructor s hFresh.1
      (hCalls.within (by simp [partsOfAll])) env h) (yields_analyzeAll false rest hFresh.2
        (hCalls.within (by simp [partsOfAll])))

/-- The call of the parent's constructor that a body is completed with is as if it were read. -/
theorem MethodDecl.source_fullBody (hFresh : Stmt.areFresh d.body = true)
    (hCalls : Stmt.CallBy names (Stmt.partsOfAll d.body)) :
    Stmt.areFresh d.fullBody = true ∧ Stmt.CallBy names (Stmt.partsOfAll d.fullBody) := by
  rw [fullBody]
  split
  · refine ⟨hFresh, ?_⟩
    simpa [Stmt.CallBy, Stmt.superCall, Stmt.partsOfAll, Stmt.parts, Stmt.operands] using hCalls
  · exact ⟨hFresh, hCalls⟩

/-- The outcome of typing a member of a class. -/
theorem Member.yields_analyzeBody (hBelow : c ≠ object) (hMember : member.Declarable names)
    (hDeclared : member.DeclaredIn env.types c) (h : env.WellFormed names)
    (hPosition : env.position = { inClass := some c }) :
    Yields member.analyzeBody env fun log member' env' =>
      env.Outcome names (fun Γ => member'.Typed Γ (Γ.Selects names) c)
        (Stmt.AllBound names (Stmt.partsOfAll member'.body))
        (fun refused => ∀ types : Registry, types.Settled names →
          Settles false (fun r => ∃ part ∈ Stmt.partsOfAll member'.body, part.Blocks r) refused
            (member'.code types c)) log env' := by
  cases member with
  | field d =>
    exact Yields.pure (.quiet h (fun _ => trivial) (fun _ => .nil) fun _ _ => .pure ())
  | method d =>
    obtain ⟨m, hResolved, hRecords⟩ := hDeclared
    obtain ⟨hFresh, hCalls⟩ := MethodDecl.source_fullBody hMember.2.1 hMember.2.2
    have hBody := Stmt.yields_analyzeBody (d.kind = .constructor) d.fullBody hFresh hCalls
      (h.placed_method hBelow hRecords.mem)
    refine Yields.bind_pure ?_
    rw [MethodDecl.analyzeBody, hResolved]
    refine (yields_enter (·.enterMethod m) (·.leaveMethod) (by rw [hPosition]; rfl)
      (by rw [hPosition]; rfl) hBody fun body => { d with body, resolved := some m }).mono ?_
    rintro log _ env' ⟨body, rfl, hOutcome⟩
    refine hOutcome.imp_below ?_ (fun _ => id) fun refused hEmits types hTypes => ?_
    · intro Γ hInterface hTyped
      exact ⟨m, rfl, hInterface.records ⟨hRecords.mem, hRecords.lt, hRecords.kind,
        hRecords.name⟩, hTyped⟩
    · exact MethodDecl.settles_code hTypes c rfl (hEmits types)

/-- The outcome of typing a class. -/
theorem ClassDecl.yields_analyzeBodies {d : ClassDecl}
    (hKnown : ∃ c, d.Linked names env.types c ∧ d.MembersDeclared env.types c)
    (h : env.WellFormed names) (hPosition : env.position = {}) :
    Yields d.analyzeBodies env fun log d' env' =>
      env.Outcome names (fun Γ => d'.Typed Γ (Γ.Selects names)) (Stmt.AllBound names d'.statements)
        (fun refused => ∀ types : Registry, types.Settled names →
          Settles false (fun r => ∃ part ∈ d'.statements, part.Blocks r) refused
            (d'.code types)) log env' := by
  obtain ⟨c, hLinked, hDeclared⟩ := hKnown
  have hMembers := yields_mapM (fun e => e.WellFormed names ∧ e.position = { inClass := some c } ∧
      d.MembersDeclared e.types c) ?_ d.members
    (fun member hMember e he => Member.yields_analyzeBody hLinked.below
      (hLinked.members member hMember) (he.2.2 member hMember) he.1 he.2.1)
    (h.placed { inClass := some c }) ⟨h.placed _, rfl, hDeclared⟩
  · rw [analyzeBodies, hLinked.resolved]
    refine (yields_enter (·.enterClass c) (·.leaveClass) (by rw [hPosition]; rfl)
      (by rw [hPosition]; rfl) hMembers fun members =>
        { d with members, resolved := some c }).mono ?_
    rintro log _ env' ⟨members, rfl, hOutcome⟩
    refine hOutcome.imp (fun Γ hTyped => ⟨c, rfl, hLinked.below, hTyped⟩) (fun _ => .flatMap) ?_
    intro refused hEmits types hTypes
    refine .require <| .after (.lines _) fun _ => (hEmits types hTypes).mono ?_
    rintro r ⟨member, hMember, part, hPart, hr⟩
    exact ⟨part, mem_flatMap.mpr ⟨member, hMember, hPart⟩, hr⟩
  · rintro e e' ⟨-, hPosition, hDeclared⟩ hFrame
    exact ⟨hFrame.wellFormed, hFrame.position.trans hPosition,
      hDeclared.of_interface hFrame.below.interface⟩

namespace Program

/-- Before the first body is typed there are no variables. -/
theorem Declared.wellFormed {ds : List ClassDecl} (h : Declared names source ds env) :
    env.WellFormed names where
  settled := h.settled
  locals := by
    intro m ty hTy
    rw [h.bare.locals m] at hTy
    cases hTy
  globals := by
    rw [h.globals]
    intro ty hTy
    cases hTy

/-- The outcome of typing the bodies of a program. -/
theorem yields_analyzeBodies (p : Program) (h : Declared names source p.classes env)
    (hMain : Stmt.areFresh p.main.body = true) (hCalls : Stmt.CallBy names (Stmt.partsOfAll p.main.body)) :
    Yields p.analyzeBodies env fun log p' env' =>
      env.Outcome names (fun Γ => p'.Typed Γ (Γ.Selects names)) (Stmt.AllBound names p'.statements)
        (fun refused => ∀ types : Registry, types.Settled names →
          Settles false (fun r => ∃ part ∈ p'.statements, part.Blocks r) refused
            (p'.code types)) log env' := by
  have hClasses := yields_mapM (fun e => e.WellFormed names ∧ e.position = {} ∧
      ∀ d ∈ p.classes, KnownIn names d e) ?_ p.classes
    (fun d hd e he => ClassDecl.yields_analyzeBodies (he.2.2 d hd) he.1 he.2.1) h.wellFormed
    ⟨h.wellFormed, h.position, h.classes⟩
  · refine Yields.bind hClasses ?_
    intro log₁ classes' env₁ h₁
    have hPosition : env₁.position = {} := h₁.frame.position.trans h.position
    have hBody := Stmt.yields_analyzeBody false p.main.body hMain hCalls h₁.frame.wellFormed.placed_main
    have hMain' := yields_enter (·.enterMain) (·.leaveMain) (by rw [hPosition]; rfl)
      (by rw [hPosition]; rfl) hBody fun body => ({ p.main with body } : MainBlock)
    refine Yields.bind_pure (Yields.mono hMain' ?_)
    rintro log₂ _ env₂ ⟨body', rfl, h₂⟩
    refine (h₁.and h₂).imp (fun Γ hTyped => hTyped) (fun Γ h => .append (.flatMap h.1) h.2) ?_
    rintro _ ⟨a, b, rfl, ha, hb⟩ types hTypes
    refine .after (.after (.lines _) fun _ => .lines _) fun _ => ?_
    refine .after (settles_dispatchTables hTypes) fun _ => ?_
    refine .after (settles_objectRoutines hTypes) fun _ => ?_
    refine .bind ((ha types hTypes).mono ?_) fun _ => MainBlock.settles_code ((hb types).mono ?_)
    · rintro r ⟨d, hd, part, hPart, hr⟩
      exact ⟨part, mem_append_left _ (mem_flatMap.mpr ⟨d, hd, hPart⟩), hr⟩
    · rintro r ⟨part, hPart, hr⟩
      exact ⟨part, mem_append_right _ hPart, hr⟩
  · rintro e e' ⟨-, hPosition, hKnown⟩ hFrame
    exact ⟨hFrame.wellFormed, hFrame.position.trans hPosition,
      fun d hd => (hKnown d hd).of_interface hFrame.below.interface⟩

/-- What a quiet analysis of a program yields. -/
structure Analyzed (names : String → Prop) (source : Program) (log : List Diagnostic) (p : Program)
    (env : Env) : Prop where
  wellFormed : env.WellFormed names
  classNames : env.types.classes.map ClassInfo.name = objectName :: source.classes.map ClassDecl.name
  faults : ∀ d ∈ log, d.fault.isFieldRedeclaration = true ∨ d.fault.isVariableFault = true
  typed : anyUndeclared log = false → p.Typed env (env.Selects names)
  bound : Stmt.AllBound names p.statements env
  verdict : Settles false (fun r => ∃ part ∈ p.statements, part.Blocks r) (anyUndeclared log)
    (p.code env.types)

/-- The name of a member that is a plain method. -/
def methodName? : Member → Option String
  | .method d => if d.kind = .method then some d.name else none
  | .field _ => none

/-- The plain methods that the program declares, and those it calls, have names that `names`
allows. -/
structure MethodNames (names : String → Prop) (p : Program) : Prop where
  declared : ∀ d ∈ p.classes, ∀ member ∈ d.members, ∀ name ∈ methodName? member, names name
  called : Stmt.CallBy names p.statements

/-- Every name will do. -/
theorem MethodNames.trivial (p : Program) : p.MethodNames fun _ => True :=
  ⟨fun _ _ _ _ _ _ => True.intro, fun _ _ _ _ _ _ _ _ => True.intro⟩

variable (hFresh : p.isFresh = true)
include hFresh

/-- Members that were just read may be declared, if the names of their methods are allowed. -/
theorem declarable_of_isFresh (hNames : p.MethodNames names) :
    ∀ d ∈ p.classes, ∀ member ∈ d.members, member.Declarable names := by
  intro d hd member hMember
  simp only [isFresh, Bool.and_eq_true, all_eq_true, ClassDecl.isFresh] at hFresh
  cases member with
  | field _ => trivial
  | method m =>
    have hMethod := (hFresh.1 d hd).2 _ hMember
    simp only [Member.isFresh, MethodDecl.isFresh, Bool.and_eq_true] at hMethod
    refine ⟨fun hKind => ?_, hMethod.2, hNames.called.within ?_⟩
    · exact hNames.declared d hd _ hMember m.name (if_pos hKind)
    · intro s hs
      have hs' : s ∈ d.statements := mem_flatMap.mpr ⟨_, hMember, hs⟩
      exact mem_append_left _ (mem_flatMap.mpr ⟨d, hd, hs'⟩)

theorem areFresh_main : Stmt.areFresh p.main.body = true := by
  rw [isFresh, Bool.and_eq_true] at hFresh
  exact hFresh.2

/-- The classes of a program as it is read, if nothing terminal is reported while they are settled. -/
theorem ensures_declareClasses (hEquals : names "equals")
    (hNames : p.MethodNames names) :
    Ensures (declareClasses p.classes) {} (·.isFieldRedeclaration) fun ds env =>
      Declared names p.classes ds env := by
  intro hQuiet
  refine ⟨fun d hd => ?_, declared_declareClasses hEquals (fun _ => resolved_of_isFresh hFresh)
    (declarable_of_isFresh hFresh hNames) hQuiet⟩
  refine (declares_declareClasses p.classes {} d hd).resolve_left fun hTerminal => ?_
  have hNot := hQuiet d hd
  simp [Diagnostic.isTerminal, Diagnostic.severity, hTerminal] at hNot

theorem declared_of_quiet (hQuiet : Quiet (declareClasses p.classes {}).log) :
    Declared (fun _ => True) p.classes
      (declareClasses p.classes {}).value.1 (declareClasses p.classes {}).value.2 :=
  (ensures_declareClasses hFresh trivial (.trivial p) hQuiet).2

/-- A program comes out well typed as a whole unless something terminal is reported. -/
theorem yields_analyze (hEquals : names "equals") (hNames : p.MethodNames names) :
    Yields p.analyze {} fun log p' env => Analyzed names p log p' env := by
  refine Yields.bind (ensures_declareClasses hFresh hEquals hNames) ?_
  rintro log₁ classes' env₁ ⟨hLog₁, hDeclared⟩
  have hMain := areFresh_main hFresh
  refine (yields_analyzeBodies { p with classes := classes' } hDeclared hMain
    (hNames.called.within (subset_append_right _ _))).mono ?_
  intro log₂ p' env₂ h₂
  have hNone : anyUndeclared log₁ = false := by
    rw [anyUndeclared, any_eq_false]
    intro d hd
    have hField := hLog₁ d hd
    revert hField
    cases d.fault <;> simp [Fault.isFieldRedeclaration, Fault.isUndeclaredVariable]
  refine ⟨h₂.frame.wellFormed, ?_, ?_, ?_, h₂.bound env₂ (.refl env₂), ?_⟩
  · rw [names_of_outline h₂.frame.below.interface.outline, hDeclared.classNames]
  · intro d hd
    exact (mem_append.mp hd).imp (hLog₁ d) (h₂.faults d)
  · intro hLog
    rw [anyUndeclared_append, hNone, Bool.false_or] at hLog
    exact h₂.typed hLog env₂ (.refl env₂) rfl
  · rw [anyUndeclared_append, hNone, Bool.false_or]
    exact h₂.verdict env₂.types h₂.frame.wellFormed.settled

end Program
end TLang
