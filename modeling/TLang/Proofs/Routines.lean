import TLang.Proofs.Confinement
import TLang.Proofs.DispatchTables
import TLang.Proofs.Roster

/-! The routines in the code of a program. Behind the tables stand the routines of the root class,
those of the other classes and that of the main block, one for each method that is registered and in
the order of registration. -/
namespace TLang

open Registry Emit List

variable {names : String → Prop} {r : Registry} {c : ClassId} {m : MethodId} {ls : List Line} {x : Emit Unit}
  {s t : EmitState}

/-- A routine as it stands in assembly: it builds its frame, runs through its body to the exit, and
has some things left to do there before it returns. -/
structure Routine where
  name : String
  locals : Nat := 0
  body : List Line
  exit : String
  closing : List Instr := []

namespace Routine

/-- Build a frame with room for variables. -/
def enter (locals : Nat) : List Instr :=
  [.push (.reg .ebp), .mov (.reg .esp) (.reg .ebp)] ++
    if 0 < locals then [.arith .sub (.imm (4 * locals)) .esp] else []

/-- Where a routine starts. -/
def entry (name : String) (locals : Nat) : List Line :=
  [.textSection, .align, .global name, .label (.symbol name)] ++ (enter locals).map .instr

def leave : List Instr := [.mov (.reg .ebp) (.reg .esp), .pop .ebp, .ret]

def lines (b : Routine) : List Line :=
  entry b.name b.locals ++ b.body ++ .label (.symbol b.exit) :: (b.closing ++ leave).map .instr

end Routine

namespace Registry

/-- All methods, class by class. -/
def routines (r : Registry) : List MethodId := r.classIds.flatMap fun c => (r.classInfo c).methods

/-- The destructor of the parent of a class. -/
def inheritedDestructor (r : Registry) (c : ClassId) : Option MethodId :=
  (r.parent c).bind fun p => (r.classInfo p).destructor

/-- Call a destructor with the current object. -/
def handOver (r : Registry) (m : MethodId) : List Instr :=
  [.push (.mem 8 .ebp), .call (.symbol (r.methodInfo m).label), .drop 1]

/-- What a routine does behind its exit: a destructor hands over to that of the parent. -/
def closing (r : Registry) (m : MethodId) : List Instr :=
  if (r.methodInfo m).kind = .destructor then
    ((r.inheritedDestructor (r.methodInfo m).owner).map r.handOver).getD []
  else []

/-- A class without parent leaves nothing to do. -/
theorem Coherent.closing_of_root (h : r.Coherent names) (hm : m ∈ (r.classInfo c).methods)
    (hParent : r.parent c = none) : r.closing m = [] := by
  rw [closing, ((h c).routine m hm).owner, inheritedDestructor, hParent]
  exact ite_self _

end Registry

namespace Line

def isComment : Line → Bool
  | comment _ => true
  | _ => false

/-- The lines that mean something. -/
def withoutComments (ls : List Line) : List Line := ls.filter fun l => !l.isComment

@[simp] theorem withoutComments_append (ls more : List Line) :
    withoutComments (ls ++ more) = withoutComments ls ++ withoutComments more :=
  filter_append ..

/-- Instructions define no names. -/
theorem filterMap_symbol_instrs (is : List Instr) : (is.map instr).filterMap symbol? = [] := by
  simp [filterMap_eq_nil_iff, symbol?]

theorem withoutComments_eq (h : ∀ l ∈ ls, l.isComment = false) : withoutComments ls = ls :=
  filter_eq_self.mpr fun l hl => by rw [h l hl]; rfl

end Line

namespace Emit

theorem prologue_apply (name : String) (locals : Nat) (s : EmitState) :
    prologue name locals s = ⟨(.ok (), s), Routine.entry name locals⟩ := by
  by_cases hLocals : 0 < locals
  · simp only [prologue, Routine.entry, Routine.enter, hLocals, if_true]
    rfl
  · simp only [prologue, Routine.entry, Routine.enter, hLocals, if_false]
    rfl

end Emit

/-- In the tree of a program the declaration stands for the method, inside the class. -/
def Program.Declares (p : Program) (c : ClassId) (m : MethodId) (d : MethodDecl) : Prop :=
  ∃ cls ∈ p.classes, cls.resolved = some c ∧ .method d ∈ cls.members ∧ d.resolved = some m

/-- The routine is that of a registered method. Its body is the code of the declaration, all returns
of which go to the exit, unless the method is one of the root class. -/
structure Routine.Implements (p : Program) (Γ : Env) (m : MethodId) (b : Routine) : Prop where
  name : b.name = (Γ.types.methodInfo m).label
  exit : b.exit = (Γ.types.methodInfo m).exitLabel
  closing : b.closing = Γ.types.closing m
  confined : Confined Γ.Mentions false [] b.exit b.body
  source : m ∈ (Γ.types.classInfo object).methods ∧
      ((Γ.types.methodInfo m).isVirtual = false → b.body = []) ∨
    ∃ c d s t ls, p.Declares c m d ∧ Stmt.ReturnTo (· = b.exit) (Stmt.partsOfAll d.body) ∧
      Stmt.codeAll Γ.types d.body s = ⟨(.ok (), t), ls⟩ ∧
      b.body = ls ++ [.instr (.mov (.imm 0) (.reg .eax))]

/-- The routine is that of the main block. -/
structure Routine.ImplementsMain (p : Program) (Γ : Env) (b : Routine) : Prop where
  name : b.name = MainBlock.entryLabel
  exit : b.exit = MainBlock.exitLabel
  closing : b.closing = []
  confined : Confined Γ.Mentions true (Stmt.declaredIn p.main.body) b.exit b.body

namespace Confined

variable {known : String → Prop} {inMain : Bool} {cells : List String} {exit : String}

theorem isComment (h : Confined known inMain cells exit ls) : ∀ l ∈ ls, l.isComment = false := by
  intro l hl
  have hLine := h.lines l hl
  cases l with
  | comment => exact hLine.elim
  | _ => rfl

/-- Instructions that neither mention a place nor jump may follow. -/
theorem append_plain (h : Confined known inMain cells exit ls) (is : List Instr)
    (hPlain : is.all Instr.isPlain = true) (hStay : ∀ i ∈ is, i.target? = none) :
    Confined known inMain cells exit (ls ++ is.map .instr) where
  lines := by
    intro l hl
    rcases mem_append.mp hl with hl | hl
    · exact h.lines l hl
    · obtain ⟨i, hi, rfl⟩ := mem_map.mp hl
      obtain ⟨hRet, hNone⟩ := isPlain_iff.mp (all_eq_true.mp hPlain i hi)
      exact ⟨hRet, by simp [hNone]⟩
  symbols := by
    rw [filterMap_append, h.symbols, Line.filterMap_symbol_instrs, append_nil]
  jumps := by
    intro l hl target hTarget
    rcases mem_append.mp hl with hl | hl
    · exact (h.jumps l hl target hTarget).imp_left (mem_append_left _)
    · obtain ⟨i, hi, rfl⟩ := mem_map.mp hl
      have hNone : i.target? = some target := hTarget
      rw [hStay i hi] at hNone
      cases hNone

theorem nil : Confined known inMain [] exit [] where
  lines := by simp
  symbols := rfl
  jumps := by simp

end Confined

theorem Routine.withoutComments_lines {b : Routine} (h : ∀ l ∈ b.body, l.isComment = false) :
    Line.withoutComments b.lines = b.lines := by
  apply Line.withoutComments_eq
  intro l hl
  simp only [lines, entry, mem_append, mem_cons, not_mem_nil, mem_map, or_false] at hl
  rcases hl with ((((rfl | rfl | rfl | rfl) | ⟨i, -, rfl⟩) | hl) | rfl | ⟨i, -, rfl⟩)
  any_goals rfl
  exact h l hl

namespace Emit

variable {p : Program} {Γ : Env} {ms more : List MethodId}

/-- Outside of bodies, the step adds the routines of the methods and nothing else but comments. -/
def LaysOut (p : Program) (Γ : Env) (ms : List MethodId) (x : Emit Unit) : Prop :=
  ∀ s t ls, s.openLoops = [] → x s = ⟨(.ok (), t), ls⟩ → t.openLoops = [] ∧
    ∃ bs, List.Forall₂ (Routine.Implements p Γ) ms bs ∧
      Line.withoutComments ls = bs.flatMap Routine.lines

namespace LaysOut

theorem comment (text : String) : LaysOut p Γ [] (comment text) := by
  intro s t ls hs h
  cases h
  exact ⟨hs, [], .nil, rfl⟩

theorem pure : LaysOut p Γ [] (pure ()) := by
  intro s t ls hs h
  cases h
  exact ⟨hs, [], .nil, rfl⟩

theorem bind {f : Unit → Emit Unit} (hx : LaysOut p Γ ms x) (hf : ∀ a, LaysOut p Γ more (f a)) :
    LaysOut p Γ (ms ++ more) (x >>= f) := by
  intro s t ls hs h
  obtain ⟨_, s', first, rest, hFirst, hRest, rfl⟩ := bind_apply_eq_ok_iff.mp h
  obtain ⟨hs', bs, hBlocks, hLines⟩ := hx s s' first hs hFirst
  obtain ⟨ht, bs', hBlocks', hLines'⟩ := hf _ s' t rest hs' hRest
  refine ⟨ht, bs ++ bs', rel_append hBlocks hBlocks', ?_⟩
  rw [Line.withoutComments_append, hLines, hLines', flatMap_append]

theorem forM {α : Type} {f : α → Emit Unit} {methods : α → List MethodId} (as : List α)
    (h : ∀ a ∈ as, LaysOut p Γ (methods a) (f a)) :
    LaysOut p Γ (as.flatMap methods) (as.forM f) := by
  induction as with
  | nil => exact pure
  | cons a as ih =>
    rw [flatMap_cons]
    exact bind (h a mem_cons_self) fun _ => ih fun b hb => h b (mem_cons_of_mem _ hb)

/-- A step that produces the lines of one routine. -/
theorem routine (h : ∀ s t ls, s.openLoops = [] → x s = ⟨(.ok (), t), ls⟩ → t.openLoops = [] ∧
      ∃ b, b.Implements p Γ m ∧ ls = Routine.lines b) : LaysOut p Γ [m] x := by
  intro s t ls hs hx
  obtain ⟨ht, b, hb, rfl⟩ := h s t ls hs hx
  refine ⟨ht, [b], .cons hb .nil, ?_⟩
  rw [Routine.withoutComments_lines hb.confined.isComment, flatMap_singleton]

end LaysOut

/-- The code of a body between the entry and the exit of a routine. -/
theorem framed_eq_ok {name exit : String} {locals : Nat} {y : Emit Unit} (h : (do
      prologue name locals
      x
      instrs [.mov (.imm 0) (.reg .eax)]
      label (.symbol exit)
      y) s = ⟨(.ok (), t), ls⟩) :
    ∃ s' body rest, x s = ⟨(.ok (), s'), body⟩ ∧ y s' = ⟨(.ok (), t), rest⟩ ∧
      ls = Routine.entry name locals ++ (body ++ [.instr (.mov (.imm 0) (.reg .eax))]) ++
        .label (.symbol exit) :: rest := by
  obtain ⟨_, s₁, _, ls₁, hEntry, h₁, rfl⟩ := bind_apply_eq_ok_iff.mp h
  rw [prologue_apply] at hEntry
  cases hEntry
  obtain ⟨_, s₂, body, ls₂, hBody, h₂, rfl⟩ := bind_apply_eq_ok_iff.mp h₁
  obtain ⟨_, s₃, _, ls₃, hZero, h₃, rfl⟩ := bind_apply_eq_ok_iff.mp h₂
  cases hZero
  obtain ⟨_, s₄, _, rest, hLabel, h₄, rfl⟩ := bind_apply_eq_ok_iff.mp h₃
  cases hLabel
  exact ⟨s₂, body, rest, hBody, h₄, by simp⟩

/-- The lines that hand over to the destructor of the parent. -/
theorem parentDestructor_eq_ok {types : Registry} (h : parentDestructor types c s = ⟨(.ok (), t), ls⟩) :
    t = s ∧ ls = (((types.inheritedDestructor c).map types.handOver).getD []).map .instr := by
  rw [parentDestructor] at h
  rw [inheritedDestructor]
  cases hParent : types.parent c with
  | none =>
    rw [hParent] at h
    cases h
    exact ⟨rfl, rfl⟩
  | some parent =>
    rw [hParent] at h
    cases hDestructor : (types.classInfo parent).destructor with
    | none =>
      simp only [hDestructor] at h
      cases h
    | some m =>
      simp only [hDestructor] at h
      cases h
      rw [Option.bind_some, hDestructor]
      exact ⟨rfl, rfl⟩

/-- A routine of the root class is laid out as the method it was registered for. No declaration stands behind
it. -/
theorem laysOut_objectRoutine (hTypes : Γ.types.Settled names) (hm : m ∈ (Γ.types.classInfo object).methods) :
    LaysOut p Γ [m] (objectRoutine (Γ.types.methodInfo m)) := by
  have hClosing := hTypes.coherent.closing_of_root hm hTypes.lineal.root_parent
  apply LaysOut.routine
  intro s t ls hs h
  obtain ⟨_, s₁, entry, rest, hEntry, hRest, rfl⟩ := bind_apply_eq_ok_iff.mp h
  rw [prologue_apply] at hEntry
  cases hEntry
  by_cases hVirtual : (Γ.types.methodInfo m).isVirtual = true
  · simp only [hVirtual, if_true] at hRest
    cases hRest
    let compare : List Instr := [.mov (.mem 8 .ebp) (.reg .eax), .arith .cmp (.mem 12 .ebp) .eax,
      .set .equal, .extendByte]
    have hCompare : Confined Γ.Mentions false [] (Γ.types.methodInfo m).exitLabel
        ([] ++ compare.map .instr) :=
      .append_plain .nil compare rfl (by simp [compare, Instr.target?])
    refine ⟨hs, ⟨_, 0, compare.map .instr, _, []⟩, ⟨rfl, rfl, hClosing.symm, hCompare, ?_⟩, rfl⟩
    exact .inl ⟨hm, by simp [hVirtual]⟩
  · simp only [hVirtual] at hRest
    cases hRest
    refine ⟨hs, ⟨_, 0, [], _, []⟩, ⟨rfl, rfl, hClosing.symm, .nil, ?_⟩, rfl⟩
    exact .inl ⟨hm, fun _ => rfl⟩

/-- All of them are laid out in the order of the table, with comments in between. -/
theorem laysOut_objectRoutines (hTypes : Γ.types.Settled names) :
    LaysOut p Γ (Γ.types.classInfo object).methods (objectRoutines Γ.types) := by
  have hRoutines : LaysOut p Γ ((Γ.types.classInfo object).methods.flatMap fun m => [m])
      ((Γ.types.classInfo object).methods.forM fun m => objectRoutine (Γ.types.methodInfo m)) :=
    .forM _ fun m hm => laysOut_objectRoutine hTypes hm
  rw [flatMap_singleton'] at hRoutines
  have hNone : (Γ.types.classInfo object).methods.isEmpty ≠ true := by
    simpa using hTypes.root
  rw [objectRoutines, if_neg hNone]
  exact .bind (.comment _) fun _ => hRoutines

end Emit

variable {p : Program} {Γ : Env}

/-- A declared method is laid out as a routine. -/
theorem MethodDecl.laysOut_code (hTypes : Γ.types.Settled names) {d : MethodDecl}
    (hDeclares : p.Declares c m d) (hTyped : Member.Typed Γ (Γ.Selects names) c (.method d)) :
    LaysOut p Γ [m] (d.code Γ.types c) := by
  obtain ⟨m', hResolved, hRecords, hBody⟩ := hTyped
  obtain ⟨cls, hCls, hClass, hMember, hm⟩ := id hDeclares
  obtain rfl : m' = m := Option.some.inj (hResolved.symm.trans hm)
  have hOwner := ((hTypes.coherent c).routine m' hRecords.mem).owner
  apply LaysOut.routine
  intro s t ls hs h
  rw [code, hResolved] at h
  obtain ⟨_, s₁, _, ls₁, hRequire, h₁, rfl⟩ := bind_apply_eq_ok_iff.mp h
  cases hRequire
  obtain ⟨_, s₂, _, ls₂, hSet, h₂, rfl⟩ := bind_apply_eq_ok_iff.mp h₁
  cases hSet
  obtain ⟨s₃, body, rest, hCode, hRest, rfl⟩ := framed_eq_ok h₂
  have hs' : ({ s with inMain := false } : EmitState).openLoops = [] := hs
  obtain ⟨hLoops, -, hConfined⟩ :=
    Stmt.confined_codeAll (Γ.selectsDeclared hTypes _) hBody hs' hCode
  have hClosing : t = s₃ ∧ rest = (Γ.types.closing m' ++ Routine.leave).map .instr := by
    rw [closing, hOwner]
    by_cases hKind : (Γ.types.methodInfo m').kind = .destructor
    · rw [if_pos hKind] at hRest ⊢
      obtain ⟨_, s₄, ls₄, ls₅, hParent, hLeave, rfl⟩ := bind_apply_eq_ok_iff.mp hRest
      obtain ⟨rfl, rfl⟩ := parentDestructor_eq_ok hParent
      cases hLeave
      exact ⟨rfl, by rw [map_append]; rfl⟩
    · rw [if_neg hKind] at hRest ⊢
      cases hRest
      exact ⟨rfl, rfl⟩
  obtain ⟨rfl, rfl⟩ := hClosing
  refine ⟨hLoops, ⟨_, _, _, _, Γ.types.closing m'⟩, ⟨rfl, rfl, rfl, ?_, ?_⟩, rfl⟩
  · exact hConfined.append_plain [.mov (.imm 0) (.reg .eax)] rfl (by simp [Instr.target?])
  · exact .inr ⟨c, d, _, _, body, hDeclares, Stmt.returnTo_exitLabel hBody, hCode, rfl⟩

/-- A class is laid out as the routines that it declares. -/
theorem ClassDecl.laysOut_code (hTypes : Γ.types.Settled names) {d : ClassDecl} (hd : d ∈ p.classes)
    (hTyped : d.Typed Γ (Γ.Selects names)) : LaysOut p Γ d.routines (d.code Γ.types) := by
  obtain ⟨c, hResolved, -, hMembers⟩ := hTyped
  have hCode : LaysOut p Γ (d.members.flatMap fun member => member.routine?.toList)
      (d.members.forM (Member.code Γ.types c)) := by
    apply LaysOut.forM
    intro member hMember
    have hMemberTyped := hMembers member hMember
    cases member with
    | field _ => exact .pure
    | method method =>
      obtain ⟨m, hm, -⟩ := id hMemberTyped
      rw [Member.routine?, hm]
      exact method.laysOut_code hTypes ⟨d, hd, hResolved, hMember, hm⟩ hMemberTyped
  have hRoutines : d.routines = [] ++ d.members.flatMap fun member => member.routine?.toList := by
    rw [routines, filterMap_eq_flatMap_toList]
    rfl
  rw [code, hResolved, hRoutines]
  exact .bind (.comment _) fun _ => hCode

/-- The main block is laid out as a routine. -/
theorem MainBlock.exists_routine (hTypes : Γ.types.Settled names) (hTyped : p.main.Typed Γ (Γ.Selects names))
    (hs : s.openLoops = []) (h : p.main.code Γ.types s = ⟨(.ok (), t), ls⟩) :
    ∃ b, Routine.ImplementsMain p Γ b ∧ Line.withoutComments ls = b.lines := by
  obtain ⟨_, s₁, _, ls₁, hSet, h₁, rfl⟩ := bind_apply_eq_ok_iff.mp h
  cases hSet
  obtain ⟨_, s₂, _, ls₂, hComment, h₂, rfl⟩ := bind_apply_eq_ok_iff.mp h₁
  cases hComment
  obtain ⟨s₃, body, rest, hCode, hRest, rfl⟩ := framed_eq_ok h₂
  cases hRest
  have hs' : ({ s with inMain := true } : EmitState).openLoops = [] := hs
  obtain ⟨-, -, hConfined⟩ :=
    Stmt.confined_codeAll (Γ.selectsDeclared hTypes _) hTyped hs' hCode
  have hBody := hConfined.append_plain [.mov (.imm 0) (.reg .eax)] rfl (by simp [Instr.target?])
  let b : Routine := {
    name := entryLabel
    body := body ++ [.instr (.mov (.imm 0) (.reg .eax))]
    exit := exitLabel }
  exact ⟨b, ⟨rfl, rfl, rfl, hBody⟩, b.withoutComments_lines hBody.isComment⟩

/-- The methods of the root class come first, and then those that the tree declares. -/
theorem Enrolled.routines_eq {ds : List ClassDecl} (h : Enrolled ds r) :
    r.routines = (r.classInfo object).methods ++ ds.flatMap ClassDecl.routines := by
  let methods (c : Option ClassId) : List MethodId :=
    c.toList.flatMap fun c => (r.classInfo c).methods
  have hIds := congrArg (List.flatMap methods) h.ids
  have hDs : ds.flatMap (fun d => methods d.resolved) = ds.flatMap ClassDecl.routines := by
    apply flatMap_congr
    intro d hd
    obtain ⟨c, hc, -⟩ := h.exists_resolved hd
    rw [h.routines d hd c hc, hc]
    exact flatMap_singleton ..
  rw [flatMap_cons, flatMap_map, flatMap_map, hDs] at hIds
  simpa [methods, Registry.routines] using hIds.symm

theorem Registry.mem_routines : m ∈ r.routines ↔ ∃ c, m ∈ (r.classInfo c).methods := by
  rw [routines, mem_flatMap]
  constructor
  · rintro ⟨c, -, hm⟩
    exact ⟨c, hm⟩
  · rintro ⟨c, hm⟩
    exact ⟨c, mem_classIds.mpr (Registry.registered_of_mem hm), hm⟩

/-- No method is registered twice. -/
theorem Registry.Coherent.nodup_routines (h : r.Coherent names) : r.routines.Nodup := by
  rw [routines, nodup_flatMap]
  refine ⟨fun c _ => (h c).distinct.of_map _, ?_⟩
  have hIds : r.classIds.Nodup :=
    nodup_range.map fun i j hij => ClassId.mk.inj hij
  apply hIds.imp
  intro c c' hne m hm hm'
  exact hne (((h c).routine m hm).owner.symm.trans ((h c').routine m hm').owner)

/-- The lines in front of the first routine. -/
def Emit.front (types : Registry) : List Line :=
  externals ++ .dataSection :: types.classes.flatMap (ClassInfo.tableLines types)

/-- A table holds no comments. -/
theorem ClassInfo.isComment_tableLines (types : Registry) (c : ClassInfo) :
    ∀ l ∈ c.tableLines types, l.isComment = false := by
  intro l hl
  simp only [tableLines, mem_cons, mem_map] at hl
  rcases hl with rfl | rfl | ⟨word, -, rfl⟩ <;> rfl

theorem Emit.withoutComments_tables (types : Registry) :
    Line.withoutComments (.dataSection :: types.classes.flatMap (ClassInfo.tableLines types)) =
      .dataSection :: types.classes.flatMap (ClassInfo.tableLines types) := by
  apply Line.withoutComments_eq
  rw [forall_mem_cons]
  refine ⟨rfl, ?_⟩
  intro l hl
  obtain ⟨c, -, hl⟩ := mem_flatMap.mp hl
  exact c.isComment_tableLines types l hl

/-- The lines are those of the tables, of the routines of all methods and of the main block, apart
from comments. -/
structure Program.LaidOut (p : Program) (Γ : Env) (lines : List Line) (bs : List Routine)
    (main : Routine) : Prop where
  methods : List.Forall₂ (Routine.Implements p Γ) Γ.types.routines bs
  entry : Routine.ImplementsMain p Γ main
  lines : Line.withoutComments lines = front Γ.types ++ bs.flatMap Routine.lines ++ main.lines

theorem exists_of_forall₂ {α β : Type} {R : α → β → Prop} {as : List α} {bs : List β}
    (h : List.Forall₂ R as bs) {a : α} (ha : a ∈ as) : ∃ b ∈ bs, R a b := by
  induction h with
  | nil => cases ha
  | cons hFirst _ ih =>
    rcases mem_cons.mp ha with rfl | ha
    · exact ⟨_, mem_cons_self, hFirst⟩
    · obtain ⟨b, hb, hR⟩ := ih ha
      exact ⟨b, mem_cons_of_mem _ hb, hR⟩

/-- Every method of a class has its routine. -/
theorem Program.LaidOut.exists_routine {lines : List Line} {bs : List Routine} {main : Routine}
    (h : p.LaidOut Γ lines bs main) (hm : m ∈ (Γ.types.classInfo c).methods) : ∃ b ∈ bs, b.Implements p Γ m :=
  exists_of_forall₂ h.methods (mem_routines.mpr ⟨c, hm⟩)

namespace Program

/-- The code of a well-typed program is laid out in routines. -/
theorem exists_routines (hTypes : Γ.types.Settled names) (hEnrolled : Enrolled p.classes Γ.types)
    (hTyped : p.Typed Γ (Γ.Selects names)) {lines : List Line}
    (hCode : p.code Γ.types {} = ⟨(.ok (), t), lines⟩) : ∃ bs main, p.LaidOut Γ lines bs main := by
  obtain ⟨_, s₁, _, ls₁, hHeader, h₁, rfl⟩ := bind_apply_eq_ok_iff.mp hCode
  obtain ⟨_, s₂, _, ls₂, hTables, h₂, rfl⟩ := bind_apply_eq_ok_iff.mp h₁
  obtain ⟨_, s₃, root, ls₃, hRoot, h₃, rfl⟩ := bind_apply_eq_ok_iff.mp h₂
  obtain ⟨_, s₄, classes, ls₄, hClasses, hMain, rfl⟩ := bind_apply_eq_ok_iff.mp h₃
  rw [header_apply] at hHeader
  cases hHeader
  rw [dispatchTables_apply hTypes] at hTables
  cases hTables
  have hLaysClasses : LaysOut p Γ (p.classes.flatMap ClassDecl.routines)
      (p.classes.forM (ClassDecl.code Γ.types)) :=
    .forM _ fun d hd => d.laysOut_code hTypes hd (hTyped.1 d hd)
  obtain ⟨hs₃, bs, hBlocks, hLines⟩ := laysOut_objectRoutines hTypes _ _ _ rfl hRoot
  obtain ⟨hs₄, bs', hBlocks', hLines'⟩ := hLaysClasses _ _ _ hs₃ hClasses
  obtain ⟨main, hMainBlock, hMainLines⟩ := MainBlock.exists_routine hTypes hTyped.2 hs₄ hMain
  refine ⟨bs ++ bs', main, ?_, hMainBlock, ?_⟩
  · rw [hEnrolled.routines_eq]
    exact rel_append hBlocks hBlocks'
  · have hExternals :
        Line.withoutComments (.comment "T compiler output" :: externals) = externals := rfl
    simp only [Line.withoutComments_append, hExternals, withoutComments_tables, hLines, hLines',
      hMainLines, flatMap_append, front, append_assoc]

/-- The assembly of a program that compiles is laid out in routines. -/
theorem exists_laidOut {options : Options} {result : Compilation} (hFresh : p.isFresh = true)
    (hOk : p.compile options = .ok result) :
    ∃ t lines bs main, p.analyzed.code p.env.types {} = ⟨(.ok (), t), lines⟩ ∧
      result.assembly = Line.fileText lines ∧ p.analyzed.LaidOut p.env lines bs main := by
  obtain ⟨hQuiet, t, lines, hCode, hAssembly⟩ := compile_eq_ok hOk
  obtain ⟨hΓ, hTyped, -⟩ := typed_of_compile_eq_ok hFresh trivial (.trivial p) hOk
  obtain ⟨bs, main, hLaidOut⟩ :=
    exists_routines hΓ.settled (enrolled hFresh hQuiet) hTyped hCode
  exact ⟨t, lines, bs, main, hCode, hAssembly, hLaidOut⟩

end Program
end TLang
