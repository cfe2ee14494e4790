import TLang.Proofs.Containment
import TLang.Proofs.Independence
import TLang.Proofs.Machine.Addresses
import TLang.Proofs.Routines

/-! Where variables are stored. The variables of a routine are the names that its analyzed body
declares, in the order of their cells in the frame; parameters and fields are found by their ranks;
and every variable of the main block has one static cell. No two variables share a cell. -/
namespace TLang

open Registry Analysis List

variable {cls : ClassDecl} {types : Registry} {p : Program} {lines ls : List Line}
  {known : String → Prop} {inMain : Bool} {cells : List String} {storage : Storage} {env Γ : Env}
  {name : String} {d : MethodDecl} {c : ClassId} {m : MethodId} {s t : EmitState} {offset : Nat}
  {select : Selection} {body : List Stmt}

/-! Which names a body declares. -/

theorem Env.isTaken_of_mem (h : name ∈ env.scopeTable.names.names) : env.isTaken name = true := by
  rw [isTaken, Bindings.declares_iff.mpr h, Bool.or_true]

namespace Env.Allots

variable {names : List String} {env' : Env}

/-- A name that is taken stays so. -/
theorem isTaken_of_isTaken (h : Allots names env env') (hKeeps : env.KeepsScope)
    (hTaken : env.isTaken name = true) : env'.isTaken name = true := by
  have hInterface := h.interface hKeeps
  have hMethod : env'.method?.any (·.params.declares name) =
      env.method?.any (·.params.declares name) := by
    rw [Env.method?, Env.method?, h.position]
    cases env.position.method? with
    | none => rfl
    | some m => simp only [Option.map_some, Option.any_some, hInterface.params m]
  rw [isTaken, Bool.or_eq_true] at hTaken ⊢
  rw [hMethod]
  refine hTaken.imp_right ?_
  intro hName
  rw [Bindings.declares_iff] at hName ⊢
  rw [h.scope_names hKeeps]
  exact mem_append_left _ hName

end Env.Allots

namespace ScopeEvent

/-- The name that an event declares. -/
def declared? : ScopeEvent → Option String
  | use _ => none
  | declare _ _ name => some name

theorem filterMap_uses (es : List Expr) : (es.map use).filterMap declared? = [] := by
  rw [filterMap_map]
  exact filterMap_eq_nil_iff.mpr fun _ _ => rfl

end ScopeEvent

namespace Env

/-- Of the names that are declared some are accepted. -/
theorem sublist_accepted (env : Env) (events : List ScopeEvent) :
    (env.accepted events).Sublist (events.filterMap ScopeEvent.declared?) := by
  induction events generalizing env with
  | nil => exact .slnil
  | cons event events ih =>
    cases event with
    | use e => exact ih env
    | declare line type name =>
      simp only [accepted, filterMap_cons, ScopeEvent.declared?]
      split
      · exact (ih _).cons name
      · exact (ih _).cons_cons name

/-- All names that are declared are taken in the end, whether they were accepted or not. -/
theorem isTaken_after (hKeeps : env.KeepsScope) (events : List ScopeEvent) :
    ∀ name ∈ events.filterMap ScopeEvent.declared?, (env.after events).isTaken name = true := by
  induction events generalizing env with
  | nil => exact fun _ h => absurd h not_mem_nil
  | cons event events ih =>
    cases event with
    | use e => exact ih hKeeps
    | declare line type first =>
      intro name hName
      have hRest := allots_after (env.step (.declare line type first)) events
      have hStep := allots_after env [.declare line type first]
      have hKeeps' := hStep.keepsScope hKeeps
      rcases mem_cons.mp hName with rfl | hName
      · refine hRest.isTaken_of_isTaken hKeeps' ?_
        rw [step_declare]
        split
        case isTrue hTaken => exact hTaken
        case isFalse =>
          apply isTaken_of_mem
          rw [allot, hKeeps.scopeTable_setScopeTable, Bindings.names_append]
          exact mem_append_right _ (mem_singleton.mpr rfl)
      · exact ih hKeeps' name hName

end Env

namespace Stmt

mutual

/-- The events of a statement declare the names that stand in it. -/
theorem declared_events : (s : Stmt) →
    s.events.filterMap ScopeEvent.declared? = s.parts.flatMap declared
  | .expr _ _ | .print _ _ | .empty _ | .delete _ _ | .breakLoop _ | .continueLoop _ => rfl
  | .declare line type names => by
    rw [events, filterMap_map, parts, flatMap_singleton]
    exact filterMap_some
  | .block _ body => declared_eventsOfAll body
  | .branch _ _ thenBranch elseBranch => by
    have hThen := declared_events thenBranch
    have hElse := declared_eventsOfElse elseBranch
    simp [events, parts, declared, filterMap_cons, ScopeEvent.declared?, hThen, hElse]
  | .loop _ _ body => declared_events body
  | .ret _ value _ => ScopeEvent.filterMap_uses value.toList
  | .construct _ _ args _ => ScopeEvent.filterMap_uses args

theorem declared_eventsOfElse : (s : Option Stmt) →
    (eventsOfElse s).filterMap ScopeEvent.declared? = (partsOfElse s).flatMap declared
  | none => rfl
  | some s => declared_events s

theorem declared_eventsOfAll : (body : List Stmt) →
    (eventsOfAll body).filterMap ScopeEvent.declared? = declaredIn body
  | [] => rfl
  | s :: rest => by
    simp [eventsOfAll, declaredIn, partsOfAll, declared_events s, declared_eventsOfAll rest]

end

/-- A body declares the same names before and after it is typed. What is dropped are repetitions and
names that were taken before. -/
theorem mem_declaredIn_analyzeBody (isConstructor : Bool) (body : List Stmt) (hKeeps : env.KeepsScope)
    (name : String) :
    (name ∈ declaredIn (analyzeBody isConstructor body env).value.1 → name ∈ declaredIn body) ∧
      (name ∈ declaredIn body → (analyzeBody isConstructor body env).value.2.isTaken name = true) := by
  have hWalks := walks_analyzeBody isConstructor body env
  rw [hWalks.names, hWalks.env, ← declared_eventsOfAll]
  exact ⟨fun hName => (env.sublist_accepted _).subset hName, Env.isTaken_after hKeeps _ name⟩

end Stmt

/-! The frame of a routine. -/

/-- The variables recorded of a routine are those that its analyzed body declares, in order and each
of them once, and none of them hides a parameter. -/
structure MethodInfo.Allots (info : MethodInfo) (body : List Stmt) : Prop where
  names : Stmt.declaredIn body = info.locals.names.names
  nodup : (Stmt.declaredIn body).Nodup
  disjoint : ∀ name ∈ Stmt.declaredIn body, name ∉ info.params.names

namespace MethodDecl

theorem allots_analyzeBody (hResolved : d.resolved = some m)
    (hReady : env.Ready { inClass := some c } [m])
    (hEmpty : (env.types.methodInfo m).locals = {}) :
    ((d.analyzeBody env).value.2.types.methodInfo m).Allots (d.analyzeBody env).value.1.body := by
  have hAllots := Stmt.allots_analyzeBody (d.kind = .constructor) d.fullBody (inside m env)
  have hScope := scope_inside hReady
  have hKeeps := keepsScope_inside hReady
  have hNames := hAllots.scope_names hKeeps
  have hNodup := hAllots.nodup hKeeps
  have hParams := (hAllots.interface hKeeps).params m
  have hStart : (inside m env).scopeTable.names.names = [] := by
    rw [Env.scopeTable, hScope]
    exact congrArg (fun table : SymbolTable => table.names.names) hEmpty
  rw [hStart] at hNames hNodup
  rw [Env.scopeTable, hAllots.position, hScope] at hNames hNodup
  rw [analyzeBody_apply hResolved]
  refine ⟨hNames.symm, (congrArg List.Nodup hNames).mp (hNodup nodup_nil), ?_⟩
  intro name hName
  have hDisjoint := hAllots.disjoint_params hKeeps hScope name hName
  rw [← hParams] at hDisjoint
  exact hDisjoint

end MethodDecl

/-- In the bodies of a class every routine ends up with the variables of its own body. -/
theorem ClassDecl.allots_analyzeBodies {d : ClassDecl} (hNodup : d.routines.Nodup)
    (hReady : env.Ready {} d.routines) (hEmpty : ∀ m ∈ d.routines, (env.types.methodInfo m).locals = {})
    (hResolved : d.resolved = some c) {method : MethodDecl}
    (hMethod : .method method ∈ (d.analyzeBodies env).value.1.members) (hm : method.resolved = some m) :
    m ∈ d.routines ∧ ((d.analyzeBodies env).value.2.types.methodInfo m).Allots method.body := by
  have hInside := ready_inside c hReady
  rw [routines_eq_flatMap] at hNodup hReady hEmpty hInside ⊢
  obtain ⟨-, hApart⟩ := Local.apart d.members (fun member _ => member.local_analyzeBody c) hNodup
    hInside
  have hMembers : (d.analyzeBodies env).value.1.members =
      d.members.map fun member => (member.analyzeBody (inside c env)).value.1 := by
    rw [analyzeBodies_apply hResolved]
    exact hApart.value
  rw [hMembers] at hMethod
  rw [analyzeBodies_apply hResolved]
  obtain ⟨member, hMember, hEq⟩ := mem_map.mp hMethod
  cases member with
  | field source => cases hEq
  | method source =>
    have hBody : (source.analyzeBody (inside c env)).value.1 = method := Member.method.inj hEq
    have hRoutine := Member.routine?_analyzeBody (.method source) (inside c env)
    rw [hEq] at hRoutine
    have hSource : source.resolved = some m := hRoutine.symm.trans hm
    have hOwn : m ∈ (Member.method source).routine?.toList := by
      rw [Member.routine?, hSource]
      exact mem_cons_self
    have hMem : m ∈ d.members.flatMap fun member => member.routine?.toList :=
      mem_flatMap.mpr ⟨_, hMember, hOwn⟩
    refine ⟨hMem, ?_⟩
    have hAllots := MethodDecl.allots_analyzeBody hSource
      (⟨hInside.1, fun id hid => mem_singleton.mp hid ▸ hInside.2 m hMem⟩ :
        (inside c env).Ready { inClass := some c } [m]) (hEmpty m hMem)
    rw [hBody] at hAllots
    have hInfo := hApart.own _ hMember m hOwn
    exact hInfo ▸ hAllots

namespace Program

/-- What the passes over the classes leave behind for the bodies to be typed. -/
theorem exists_typedApart (hFresh : p.isFresh = true) (hQuiet : Quiet p.diagnostics) :
    ∃ ds env, Declared (fun _ => True) p.classes ds env ∧ Enrolled ds env.types ∧
      (ds.flatMap ClassDecl.routines).Nodup ∧ env.Ready {} (ds.flatMap ClassDecl.routines) ∧
      p.analyzed = (analyzeBodies { p with classes := ds } env).value.1 ∧
      p.env = (analyzeBodies { p with classes := ds } env).value.2 := by
  have hLog : Quiet (declareClasses p.classes {}).log :=
    fun d hd => hQuiet d (mem_append_left _ hd)
  have hDeclared := declared_of_quiet hFresh hLog
  have hEnrolled := enrolled_declareClasses hFresh hLog
  have hNodup := hDeclared.settled.coherent.nodup_routines
  rw [hEnrolled.routines_eq] at hNodup
  refine ⟨_, _, hDeclared, hEnrolled, (nodup_append.mp hNodup).2.1, ⟨hDeclared.position, ?_⟩, rfl, rfl⟩
  intro m hm
  obtain ⟨d, hd, hm⟩ := mem_flatMap.mp hm
  obtain ⟨c, hc, -⟩ := hEnrolled.exists_resolved hd
  rw [hEnrolled.routines d hd c hc] at hm
  exact (hDeclared.settled.coherent c).bounded m hm

/-- Every routine has the variables that its analyzed body declares. -/
theorem allots_analyzed (hFresh : p.isFresh = true) (hQuiet : Quiet p.diagnostics)
    (hCls : cls ∈ p.analyzed.classes) (hd : .method d ∈ cls.members) (hm : d.resolved = some m) :
    (p.env.types.methodInfo m).Allots d.body := by
  obtain ⟨ds, env, hDeclared, hEnrolled, hNodup, hReady, hAnalyzed, hEnv⟩ :=
    exists_typedApart hFresh hQuiet
  have hApart := typedApart_analyzeBodies { p with classes := ds } hNodup hReady
  rw [hAnalyzed, hApart.classes] at hCls
  obtain ⟨source, hSource, rfl⟩ := mem_map.mp hCls
  obtain ⟨c, hc, -⟩ := hEnrolled.exists_resolved hSource
  have hMem : ∀ id ∈ source.routines, id ∈ ds.flatMap ClassDecl.routines :=
    fun id hid => mem_flatMap.mpr ⟨source, hSource, hid⟩
  obtain ⟨hRoutine, hAllots⟩ := ClassDecl.allots_analyzeBodies
    ((nodup_flatMap.mp hNodup).1 source hSource)
    ⟨hReady.1, fun id hid => hReady.2 id (hMem id hid)⟩ (fun id _ => hDeclared.bare.locals id) hc hd hm
  rw [hEnv, hApart.own source hSource m hRoutine]
  exact hAllots

/-- The main block declares the same names before and after it is typed. -/
theorem mem_declaredIn_main (hFresh : p.isFresh = true) (hQuiet : Quiet p.diagnostics)
    (name : String) :
    name ∈ Stmt.declaredIn p.analyzed.main.body ↔ name ∈ Stmt.declaredIn p.main.body := by
  obtain ⟨ds, env, hDeclared, -, hNodup, hReady, hAnalyzed, hEnv⟩ :=
    exists_typedApart hFresh hQuiet
  have hApart := typedApart_analyzeBodies { p with classes := ds } hNodup hReady
  have hKeeps := MainBlock.keepsScope_inside hReady.1
  have hBoth := Stmt.mem_declaredIn_analyzeBody false p.main.body hKeeps name
  have hAllots := Stmt.allots_analyzeBody false p.main.body (MainBlock.inside env)
  have hScope := MainBlock.scope_inside hReady.1
  rw [hAnalyzed, hApart.main, MainBlock.analyze_apply]
  refine ⟨hBoth.1, fun hName => ?_⟩
  have hTaken := hBoth.2 hName
  have hNames := hAllots.scope_names hKeeps
  have hStart : (MainBlock.inside env).scopeTable.names.names = [] := by
    rw [MainBlock.scopeTable_of_program hScope]
    exact congrArg (fun table : SymbolTable => table.names.names) hDeclared.globals
  have hMethod : (Stmt.analyzeBody false p.main.body (MainBlock.inside env)).value.2.method? = none := by
    rw [Env.method?, hAllots.position]
    simp [MainBlock.inside, Env.updatePosition, hReady.1, Position.enterMain, Position.method?]
  rw [Env.isTaken, hMethod, Option.any_none, Bool.false_or, Bindings.declares_iff, hNames, hStart,
    nil_append] at hTaken
  exact hTaken

end Program

/-! Cells in the code. -/

section Code

open Emit

/-- The code of a method starts by making room for its variables. -/
theorem MethodDecl.entry_code (hResolved : d.resolved = some m) (h : d.code types c s = ⟨(.ok (), t), ls⟩) :
    Routine.entry (types.methodInfo m).label (types.methodInfo m).locals.names.length <+: ls := by
  rw [code, hResolved] at h
  obtain ⟨_, s₁, _, ls₁, hRequire, h₁, rfl⟩ := bind_apply_eq_ok_iff.mp h
  cases hRequire
  obtain ⟨_, s₂, _, ls₂, hSet, h₂, rfl⟩ := bind_apply_eq_ok_iff.mp h₁
  cases hSet
  obtain ⟨s₃, body, rest, -, -, rfl⟩ := framed_eq_ok h₂
  simp only [nil_append, append_assoc]
  exact prefix_append _ _

/-- The code of a program contains that of every method in its tree. -/
theorem Program.contains_method (hCls : cls ∈ p.classes) (hResolved : cls.resolved = some c)
    (hd : .method d ∈ cls.members) : Contains (p.code types) (d.code types c) := by
  refine .right fun _ => .right fun _ => .right fun _ => .left ((Contains.forM hCls).trans ?_)
  rw [ClassDecl.code, hResolved]
  have hMember : Contains (cls.members.forM (Member.code types c)) (d.code types c) := .forM hd
  exact .granted (.right fun _ => hMember)

/-- The name of the static cell that a line reserves. -/
def Line.cell? : Line → Option String
  | cell name => some name
  | _ => none

/-- In a body only cells define names. -/
theorem Confined.filterMap_cell {exit : String} (h : Confined known inMain cells exit ls) :
    ls.filterMap Line.cell? = cells.map mainVarLabel := by
  rw [← h.symbols]
  apply filterMap_congr
  intro l hl
  have hLine := h.lines l hl
  cases l with
  | label l =>
    cases l with
    | symbol name => exact hLine.elim
    | branch | loop => rfl
  | _ => rfl

theorem Routine.filterMap_cell_lines {b : Routine} (h : Confined known inMain cells b.exit b.body) :
    b.lines.filterMap Line.cell? = cells.map mainVarLabel := by
  have hInstrs : ∀ is : List Instr, (is.map Line.instr).filterMap Line.cell? = [] := by
    simp [filterMap_eq_nil_iff, Line.cell?]
  simp only [lines, entry, filterMap_append, filterMap_cons, hInstrs, h.filterMap_cell,
    Line.cell?, append_nil, filterMap_nil, nil_append]

/-- The cells of a program are those of the variables of its main block. -/
theorem Program.LaidOut.filterMap_cell {bs : List Routine} {main : Routine} (h : p.LaidOut Γ lines bs main) :
    lines.filterMap Line.cell? = (Stmt.declaredIn p.main.body).map mainVarLabel := by
  have hComments : (Line.withoutComments lines).filterMap Line.cell? = lines.filterMap Line.cell? := by
    rw [Line.withoutComments, filterMap_filter]
    apply filterMap_congr
    intro l _
    cases l <;> rfl
  have hFront : (front Γ.types).filterMap Line.cell? = [] := by
    rw [filterMap_eq_nil_iff]
    intro l hl
    rw [front, mem_append, mem_cons, mem_flatMap] at hl
    rcases hl with hl | rfl | ⟨c, -, hl⟩
    · obtain ⟨r, -, rfl⟩ := mem_map.mp hl
      rfl
    · rfl
    · simp only [ClassInfo.tableLines, mem_cons, mem_map] at hl
      rcases hl with rfl | rfl | ⟨word, -, rfl⟩ <;> rfl
  have hMethods : (bs.flatMap Routine.lines).filterMap Line.cell? = [] := by
    rw [filterMap_flatMap, flatMap_eq_nil_iff]
    intro b hb
    obtain ⟨m, -, hImplements⟩ := exists_of_forall₂ h.methods.flip hb
    exact Routine.filterMap_cell_lines hImplements.confined
  rw [← hComments, h.lines, filterMap_append, filterMap_append, hFront, hMethods,
    Routine.filterMap_cell_lines h.entry.confined]
  rfl

end Code

/-! Fields. -/

namespace Registry

variable {r : Registry}

variable (h : r.fieldOffset c name = some offset)
include h

/-- A field has a cell of the object, behind the one for the dispatch table. -/
theorem exists_rank_of_fieldOffset :
    ∃ owner rank, (r.fieldLayout c)[rank]? = some (owner, name) ∧ offset = 4 * (rank + 1) := by
  rw [fieldOffset] at h
  obtain ⟨owner, -, h⟩ := Option.bind_eq_some_iff.mp h
  obtain ⟨rank, hRank, hOffset⟩ := Option.bind_eq_some_iff.mp h
  obtain ⟨hLt, hEntry, -⟩ := List.findIdx?_eq_some_iff_getElem.mp hRank
  refine ⟨owner, rank, ?_, (Option.some.inj hOffset).symm⟩
  rw [List.getElem?_eq_getElem hLt, beq_iff_eq.mp hEntry]

theorem fieldOffset_bounds : 4 ∣ offset ∧ 4 ≤ offset ∧ offset < 4 * r.instanceCells c := by
  obtain ⟨owner, rank, hRank, rfl⟩ := exists_rank_of_fieldOffset h
  have hLt := (List.getElem?_eq_some_iff.mp hRank).1
  rw [instanceCells]
  omega

/-- Fields of different names are stored in different cells. -/
theorem fieldOffset_inj {name' : String} {offset' : Nat}
    (h' : r.fieldOffset c name' = some offset') : offset = offset' ↔ name = name' := by
  constructor
  · rintro rfl
    obtain ⟨owner, rank, hRank, hOffset⟩ := exists_rank_of_fieldOffset h
    obtain ⟨owner', rank', hRank', hOffset'⟩ := exists_rank_of_fieldOffset h'
    obtain rfl : rank = rank' := by omega
    rw [hRank] at hRank'
    exact congrArg Prod.snd (Option.some.inj hRank')
  · rintro rfl
    exact Option.some.inj (h.symm.trans h')

end Registry

/-! The variables that bodies use. -/

/-- The body uses a variable of the name that is kept in the given storage. -/
def Stmt.Uses (body : List Stmt) (name : String) (storage : Storage) : Prop :=
  ∃ s ∈ partsOfAll body, ∃ root ∈ s.operands, ∃ mark, (Expr.var mark name (some storage)).IsPart root

/-- What a well-typed body uses is declared. -/
theorem Stmt.Uses.declares {inLoop : Bool} (h : Uses body name storage)
    (hTyped : AllTyped Γ select inLoop body) : ∃ ty, Γ.Declares name storage ty := by
  obtain ⟨s, hs, root, hRoot, mark, hPart⟩ := h
  obtain ⟨inLoop', hStmt⟩ := AllTyped.part body hTyped hs
  obtain ⟨ty, hRootTyped⟩ := hStmt.operand hRoot
  obtain ⟨d, hVar⟩ := hRootTyped.part hPart
  cases hVar with
  | var line hDeclares => exact ⟨_, hDeclares⟩

/-- How a routine reaches the variables that its body uses: those of the body by their ranks among
the cells of the frame, parameters by theirs, and fields by their offsets in the current object. -/
structure MethodInfo.Stores (info : MethodInfo) (types : Registry) (body : List Stmt) : Prop where
  allots : info.Allots body
  mainVar : ∀ name, ¬ Stmt.Uses body name .mainVar
  localVar : ∀ name slot, Stmt.Uses body name (.localVar slot) →
    info.locals.names.position? name = some slot ∧ slot < info.locals.names.length
  localVar_inj : ∀ name name' slot slot', Stmt.Uses body name (.localVar slot) →
    Stmt.Uses body name' (.localVar slot') → (slot = slot' ↔ name = name')
  param : ∀ name index, Stmt.Uses body name (.param index) →
    index < info.params.length ∧ info.params.names[index]? = some name
  field : ∀ name offset, Stmt.Uses body name (.field offset) →
    4 ∣ offset ∧ 4 ≤ offset ∧ offset < 4 * types.instanceCells info.owner
  field_inj : ∀ name name' offset offset', Stmt.Uses body name (.field offset) →
    Stmt.Uses body name' (.field offset') → (offset = offset' ↔ name = name')

/-- The rules of typing admit no other use of a variable. -/
theorem MethodInfo.Allots.stores (h : (Γ.types.methodInfo m).Allots body)
    (hTyped : Stmt.AllTyped (Γ.placed { inClass := some c, inMethod := some m }) select false body) :
    (Γ.types.methodInfo m).Stores Γ.types body := by
  have hNodup : (Γ.types.methodInfo m).locals.names.names.Nodup := h.names ▸ h.nodup
  have hLocal : ∀ {name : String} {slot : Nat}, Stmt.Uses body name (.localVar slot) →
      ∃ ty, (Γ.types.methodInfo m).locals.names[slot]? = some (name, ty) := by
    intro name slot hUses
    obtain ⟨ty, hDeclares⟩ := hUses.declares hTyped
    cases hDeclares with
    | localVar hScope hType =>
      cases hScope
      exact ⟨ty, hType⟩
  have hField : ∀ {name : String} {offset : Nat}, Stmt.Uses body name (.field offset) →
      Γ.types.fieldOffset (Γ.types.methodInfo m).owner name = some offset := by
    intro name offset hUses
    obtain ⟨ty, hDeclares⟩ := hUses.declares hTyped
    cases hDeclares with
    | field hOwner hType hOffset =>
      cases hOwner
      exact hOffset
  refine ⟨h, ?_, ?_, ?_, ?_, ?_, ?_⟩
  · intro name hUses
    obtain ⟨ty, hDeclares⟩ := hUses.declares hTyped
    cases hDeclares with
    | mainVar hScope => cases hScope
  · intro name slot hUses
    obtain ⟨ty, hEntry⟩ := hLocal hUses
    exact ⟨Bindings.position?_of_getElem? hNodup hEntry, (List.getElem?_eq_some_iff.mp hEntry).1⟩
  · intro name name' slot slot' hUses hUses'
    obtain ⟨ty, hEntry⟩ := hLocal hUses
    obtain ⟨ty', hEntry'⟩ := hLocal hUses'
    constructor
    · rintro rfl
      rw [hEntry] at hEntry'
      exact congrArg Prod.fst (Option.some.inj hEntry')
    · rintro rfl
      have hRank := Bindings.position?_of_getElem? hNodup hEntry
      exact Option.some.inj (hRank.symm.trans (Bindings.position?_of_getElem? hNodup hEntry'))
  · intro name index hUses
    obtain ⟨ty, hDeclares⟩ := hUses.declares hTyped
    cases hDeclares with
    | param hScope hType =>
      cases hScope
      refine ⟨(List.getElem?_eq_some_iff.mp hType).1, ?_⟩
      rw [Bindings.names, List.getElem?_map]
      exact congrArg (Option.map Prod.fst) hType
  · exact fun name offset hUses => fieldOffset_bounds (hField hUses)
  · exact fun name name' offset offset' hUses hUses' =>
      fieldOffset_inj (hField hUses) (hField hUses')

/-- Where the cells are while the routine runs. The code of a variable finds its cell; the cells of the
variables of the body are in the words that the prologue reserves, those of fields in the current object,
and different ones do not overlap. The frame and the object are taken to fit into the address space. -/
structure MethodInfo.Addresses (info : MethodInfo) (types : Registry) (body : List Stmt) (host : Host)
    (m : Machine) : Prop where
  computed : ∀ name storage, m.address host name storage = .ok (m.place host name storage)
  reserved : ∃ m', m.through host (Routine.entry info.label info.locals.names.length) = .ok m' ∧
    m'.regs .ebp = m.regs .esp - 4 ∧
      m'.regs .esp = m'.regs .ebp - .ofNat 32 (4 * info.locals.names.length)
  localVar : 4 * info.locals.names.length ≤ 2 ^ 32 → ∀ name slot, Stmt.Uses body name (.localVar slot) →
    ∀ a, (m.place host name (.localVar slot)).Covers a →
      (a - (m.regs .ebp - .ofNat 32 (4 * info.locals.names.length))).toNat < 4 * info.locals.names.length
  localVar_apart : 4 * info.locals.names.length ≤ 2 ^ 32 → ∀ name name' slot slot',
    Stmt.Uses body name (.localVar slot) → Stmt.Uses body name' (.localVar slot') → name ≠ name' →
      (m.place host name (.localVar slot)).Apart (m.place host name' (.localVar slot'))
  field : 4 * types.instanceCells info.owner ≤ 2 ^ 32 → ∀ name offset, Stmt.Uses body name (.field offset) →
    ∀ a, (m.place host name (.field offset)).Covers a →
      (a - m.memory.load (m.regs .ebp + 8)).toNat < 4 * types.instanceCells info.owner
  field_apart : 4 * types.instanceCells info.owner ≤ 2 ^ 32 → ∀ name name' offset offset',
    Stmt.Uses body name (.field offset) → Stmt.Uses body name' (.field offset') → name ≠ name' →
      (m.place host name (.field offset)).Apart (m.place host name' (.field offset'))

theorem MethodInfo.Stores.addresses {info : MethodInfo} (h : info.Stores types body) (host : Host) (m : Machine) :
    info.Addresses types body host m where
  computed := m.address_eq host
  reserved := by
    obtain ⟨m', hEntry, hFrame, hStack, -⟩ := m.through_prologue host info.label info.locals.names.length {}
    rw [Emit.prologue_apply] at hEntry
    exact ⟨m', hEntry, hFrame, hStack⟩
  localVar hSize name slot hUses a ha := by
    have hSlot := (h.localVar name slot hUses).2
    rw [Machine.place, Word.sub_eq_add _ hSlot] at ha
    exact Word.inside_of_covers (by omega) hSize ha
  localVar_apart hSize name name' slot slot' hUses hUses' hNe := by
    have hSlot := (h.localVar name slot hUses).2
    have hSlot' := (h.localVar name' slot' hUses').2
    have hSlots := (h.localVar_inj name name' slot slot' hUses hUses').not.mpr hNe
    rw [Machine.place, Machine.place, Word.sub_eq_add _ hSlot, Word.sub_eq_add _ hSlot']
    exact Word.apart_of_ne (by omega) (by omega) hSize (by omega)
  field hSize name offset hUses a ha := by
    obtain ⟨⟨rank, rfl⟩, -, hBound⟩ := h.field name offset hUses
    exact Word.inside_of_covers (by omega) hSize ha
  field_apart hSize name name' offset offset' hUses hUses' hNe := by
    have hOffsets := (h.field_inj name name' offset offset' hUses hUses').not.mpr hNe
    obtain ⟨⟨rank, rfl⟩, -, hBound⟩ := h.field name offset hUses
    obtain ⟨⟨rank', rfl⟩, -, hBound'⟩ := h.field name' offset' hUses'
    exact Word.apart_of_ne (by omega) (by omega) hSize (by omega)

/-- The code of a variable that a body uses stands in the code of the body. -/
theorem Stmt.Uses.contains (h : Uses body name storage) :
    (codeAll types body).Contains (Emit.storageAddress name storage) := by
  obtain ⟨s, hs, root, hRoot, mark, hPart⟩ := h
  exact (contains_partOfAll types body hs).trans ((contains_operand types hRoot).trans
    ((Expr.contains_part types hPart).trans (.right fun _ => .granted (.refl _))))

/-- The main block reaches its variables by name. -/
theorem Stmt.Uses.of_main (h : Uses body name storage)
    (hTyped : AllTyped (Γ.placed { inMain := true }) select false body) :
    storage = .mainVar ∧ name ∈ Γ.globals.names.names := by
  obtain ⟨ty, hDeclares⟩ := h.declares hTyped
  cases hDeclares with
  | mainVar hScope hType =>
    refine ⟨rfl, ?_⟩
    by_contra hName
    have hNone := Bindings.type?_eq_none_iff.mpr hName
    cases hNone.symm.trans hType
  | localVar hScope | param hScope => cases hScope
  | field hOwner => cases hOwner

theorem mainVarLabel_injective : Function.Injective mainVarLabel := by
  intro name name' hEq
  apply String.toList_inj.mp
  simpa [mainVarLabel] using congrArg String.toList hEq

namespace Program

/-- In a program that compiles, variables are stored in cells that exist, and different variables in
different ones. A method makes room for the variables of its analyzed body, in order, none of which is
declared twice or hides a parameter; a variable, a parameter or a field that the body uses is the one
at its rank in the frame, among the parameters or in the object, and the code of the method finds it there,
whatever machine runs it. A variable that the main block uses has one static cell, and there is one for every
name that the main block declares and no other. -/
theorem compile_storage (options : Options) (p : Program) (hFresh : p.isFresh = true)
    (result : Compilation) (hOk : p.compile options = .ok result) :
    ∃ lines, result.assembly = Line.fileText lines ∧
      (∀ cls ∈ p.analyzed.classes, ∀ d, .method d ∈ cls.members → ∃ c m,
        cls.resolved = some c ∧ d.resolved = some m ∧ (p.env.types.methodInfo m).owner = c ∧
          (p.env.types.methodInfo m).Stores p.env.types d.body ∧
          (∀ host machine, (p.env.types.methodInfo m).Addresses p.env.types d.body host machine) ∧
          ∃ s t code, d.code p.env.types c s = ⟨(.ok (), t), code⟩ ∧ code <:+: lines ∧
            Routine.entry (p.env.types.methodInfo m).label
              (p.env.types.methodInfo m).locals.names.length <+: code ∧
            ∀ name storage, Stmt.Uses d.body name storage →
              (Emit.storageAddress name storage {}).log <:+: code) ∧
      (∀ name storage, Stmt.Uses p.analyzed.main.body name storage →
        storage = .mainVar ∧ (lines.filterMap Line.cell?).count (mainVarLabel name) = 1 ∧
          ∀ host machine, Machine.address host machine name storage =
            .ok (host.address (.symbol (mainVarLabel name)))) ∧
      (lines.filterMap Line.cell?).Nodup ∧
      ∀ cell, cell ∈ lines.filterMap Line.cell? ↔
        ∃ name ∈ Stmt.declaredIn p.main.body, cell = mainVarLabel name := by
  obtain ⟨hQuiet, -⟩ := compile_eq_ok hOk
  obtain ⟨hΓ, hTyped, -⟩ := typed_of_compile_eq_ok hFresh trivial (.trivial p) hOk
  obtain ⟨t, lines, bs, main, hCode, hAssembly, hLaidOut⟩ := exists_laidOut hFresh hOk
  obtain ⟨hGlobals, hDistinct⟩ := globals_analyzed hFresh hQuiet
  have hCells := hLaidOut.filterMap_cell
  have hNodup : (lines.filterMap Line.cell?).Nodup := by
    rw [hCells, ← hGlobals]
    exact hDistinct.map mainVarLabel_injective
  refine ⟨lines, hAssembly, ?_, ?_, hNodup, ?_⟩
  · intro cls hCls d hd
    obtain ⟨c, hc, -, hMembers⟩ := hTyped.1 cls hCls
    obtain ⟨m, hm, hRecords, hBody⟩ := hMembers _ hd
    have hStores := (allots_analyzed hFresh hQuiet hCls hd hm).stores hBody
    obtain ⟨s, _, t, before, code, after, hMethod, hLines⟩ := contains_method hCls hc hd _ _ _ _ hCode
    refine ⟨c, m, hc, hm, ((hΓ.settled.coherent c).routine m hRecords.mem).owner, hStores,
      fun host machine => hStores.addresses host machine, s, t, code, hMethod, ⟨before, after, hLines.symm⟩,
      MethodDecl.entry_code hm hMethod, fun name storage hUses => ?_⟩
    have hBody : (d.code p.env.types c).Contains (Stmt.codeAll p.env.types d.body) :=
      .right fun _ => .right fun _ => .right fun _ => .left (.refl _)
    obtain ⟨s', _, t', before', inner, after', hInner, rfl⟩ := hBody.trans hUses.contains _ _ _ _ hMethod
    cases storage <;> cases hInner <;> exact ⟨before', after', rfl⟩
  · intro name storage hUses
    obtain ⟨hStorage, hName⟩ := hUses.of_main hTyped.2
    subst hStorage
    refine ⟨rfl, count_eq_one_of_mem hNodup ?_, fun host machine => machine.address_eq host name .mainVar⟩
    rw [hCells, ← hGlobals]
    exact mem_map_of_mem hName
  · intro cell
    rw [hCells, mem_map]
    simp only [mem_declaredIn_main hFresh hQuiet]
    constructor
    · rintro ⟨name, hName, rfl⟩
      exact ⟨name, hName, rfl⟩
    · rintro ⟨name, hName, rfl⟩
      exact ⟨name, hName, rfl⟩

/-- Fields that are hidden by fields and by variables, and names that are declared more than once. -/
def crowded : Program where
  classes := [
    { line := 1, name := "A", members := [.field ⟨2, .int, ["x", "y", "x"], none⟩] },
    { line := 3, name := "B", parent := some "A", members := [
      .field ⟨4, .named "B", ["x"], none⟩,
      .method {
        line := 5, name := "f", returns := some .int
        params := [⟨5, .int, "p"⟩, ⟨5, .named "B", "q"⟩]
        body := [
          .expr 6 (.assign 6 (.var 6 "x" none) (.var 6 "q" none)),
          .declare 7 .int ["t", "p"],
          .block 8 [.declare 9 .int ["x", "t"], .declare 10 .int ["u"]],
          .expr 11 (.assign 11 (.var 11 "u" none)
            (.binary 11 .add (.var 11 "x" none) (.var 11 "y" none))),
          .ret 12 (some (.var 12 "p" none)) none] }] }]
  main := ⟨14, [
    .declare 15 .int ["a", "b", "a"],
    .loop 16 (.var 16 "b" none) (.block 16 [.declare 17 (.named "B") ["c", "b"]]),
    .expr 18 (.assign 18 (.var 18 "c" none) (.null 18))]⟩

theorem compile_storage_crowded : crowded.isFresh = true ∧
    ∃ result lines, crowded.compile {} = .ok result ∧ result.assembly = Line.fileText lines ∧
      (∃ cls ∈ crowded.analyzed.classes, ∃ d, .method d ∈ cls.members ∧
        Stmt.declaredIn d.body = ["t", "x", "u"] ∧ ∃ m, d.resolved = some m ∧
          (crowded.env.types.methodInfo m).locals.names.names = ["t", "x", "u"] ∧
          Routine.entry (crowded.env.types.methodInfo m).label 3 <:+: lines ∧
          ∀ host machine, Machine.address host machine "u" (.localVar 2) = .ok (machine.regs .ebp - 12)) ∧
      (lines.filterMap Line.cell?).Nodup ∧ ∀ cell, cell ∈ lines.filterMap Line.cell? ↔
        cell ∈ ["mainvar$a", "mainvar$b", "mainvar$c"] := by
  have hFresh : crowded.isFresh = true := by decide
  have hSome : (crowded.compile {}).toOption.isSome = true := by decide +kernel
  have hBody : (crowded.analyzed.classes.any fun cls => cls.members.any fun member =>
      Stmt.declaredIn member.body == ["t", "x", "u"]) = true := by decide +kernel
  obtain ⟨result, hOk, -⟩ := exists_assembly hSome
  obtain ⟨lines, hAssembly, hMethods, -, hNodup, hCells⟩ :=
    compile_storage {} crowded hFresh result hOk
  refine ⟨hFresh, result, lines, hOk, hAssembly, ?_, hNodup, ?_⟩
  · obtain ⟨cls, hCls, hAny⟩ := any_eq_true.mp hBody
    obtain ⟨member, hMember, hEq⟩ := any_eq_true.mp hAny
    rw [beq_iff_eq] at hEq
    cases member with
    | field d => cases hEq
    | method d =>
      have hDeclared : Stmt.declaredIn d.body = ["t", "x", "u"] := hEq
      obtain ⟨c, m, hc, hm, -, hStores, hAddresses, s, t, code, -, hInfix, hEntry, -⟩ := hMethods cls hCls d hMember
      have hNames := hStores.allots.names.symm.trans hDeclared
      have hLength : (crowded.env.types.methodInfo m).locals.names.length = 3 := by
        simpa [Bindings.names] using congrArg List.length hNames
      rw [hLength] at hEntry
      exact ⟨cls, hCls, d, hMember, hDeclared, m, hm, hNames, hEntry.isInfix.trans hInfix,
        fun host machine => (hAddresses host machine).computed "u" (.localVar 2)⟩
  · intro cell
    have hDeclared : Stmt.declaredIn crowded.main.body = ["a", "b", "a", "c", "b"] := by decide
    rw [hCells, hDeclared]
    constructor
    · rintro ⟨name, hName, rfl⟩
      revert name
      decide
    · revert cell
      decide

end Program
end TLang
