import TLang.Proofs.Outcome
import TLang.Proofs.Registry.Signatures

/-! Overriding. A method takes over a slot of the table of its parent just if it has the same
signature, so one slot holds methods of one signature in the tables of a class and of all its
subclasses. Where signatures can be read back, these methods take the same parameters. What a method
returns is not part of its signature: along a line of inheritance results are narrowed just if every
class narrows those of its parent, and analysis leaves it at that. -/
namespace TLang

variable {ty : Ty} {d p : ClassId} {signature : String}

variable {m m' : MethodId} {c : ClassId} {slot : Nat}

namespace Registry

variable {names : String → Prop} {r : Registry}

/-- The name of the type stands in a signature for nothing else that a parameter may have: it is
neither that of the int type nor several parts. -/
def ReadableType (r : Registry) : Ty → Prop
  | .ofClass c => Unseparated (r.classInfo c).name ∧ (r.classInfo c).name ≠ r.typeName .int
  | _ => True

instance (r : Registry) : (ty : Ty) → Decidable (r.ReadableType ty)
  | .ofClass c =>
    inferInstanceAs (Decidable (Unseparated (r.classInfo c).name ∧
      (r.classInfo c).name ≠ r.typeName .int))
  | .int | .null | .untyped | .error | .address | .ofMethod _ => .isTrue trivial

/-- The signature of the method can be read back. -/
def Readable (r : Registry) (m : MethodId) : Prop :=
  Unseparated (r.methodInfo m).name ∧ ∀ ty ∈ (r.methodInfo m).params.types, r.ReadableType ty

instance (r : Registry) (m : MethodId) : Decidable (r.Readable m) :=
  inferInstanceAs (Decidable (Unseparated (r.methodInfo m).name ∧
    ∀ ty ∈ (r.methodInfo m).params.types, r.ReadableType ty))

/-- A result of the first method may stand where one of the second is expected. -/
def returnsBelow (r : Registry) (m m' : MethodId) : Bool :=
  match (r.methodInfo m).returns, (r.methodInfo m').returns with
  | some ty, some ty' => r.isAssignable ty ty'
  | _, _ => false

/-- A result of any method that a class declares may stand where one of the method whose slot it
takes over is expected. -/
def NarrowsReturns (r : Registry) : Prop :=
  ∀ c ∈ r.classIds, ∀ p ∈ r.parent c, ∀ m ∈ r.ownVirtual c, ∀ m' ∈ (r.classInfo p).vmt,
    (r.methodInfo m').signature = (r.methodInfo m).signature → r.returnsBelow m m' = true

instance (r : Registry) : Decidable r.NarrowsReturns :=
  inferInstanceAs (Decidable (∀ c ∈ r.classIds, ∀ p ∈ r.parent c, ∀ m ∈ r.ownVirtual c,
    ∀ m' ∈ (r.classInfo p).vmt,
      (r.methodInfo m').signature = (r.methodInfo m).signature → r.returnsBelow m m' = true))

theorem returnsBelow_iff : r.returnsBelow m m' = true ↔
    ∃ ty ty', (r.methodInfo m).returns = some ty ∧ (r.methodInfo m').returns = some ty' ∧
      r.isAssignable ty ty' = true := by
  rw [returnsBelow]
  cases (r.methodInfo m).returns <;> cases (r.methodInfo m').returns <;> simp

theorem returnsBelow_trans {m'' : MethodId} (h : r.returnsBelow m m' = true)
    (h' : r.returnsBelow m' m'' = true) : r.returnsBelow m m'' = true := by
  rw [returnsBelow_iff] at h h' ⊢
  obtain ⟨ty, ty', hReturns, hReturns', hAssignable⟩ := h
  obtain ⟨_, ty'', hSame, hReturns'', hAssignable'⟩ := h'
  rw [hReturns', Option.some.injEq] at hSame
  exact ⟨ty, ty'', hReturns, hReturns'', isAssignable_trans hAssignable (hSame ▸ hAssignable')⟩

theorem unseparated_of_readableType (hTy : r.IsStored ty) (h : r.ReadableType ty) :
    Unseparated (r.typeName ty) := by
  cases ty with
  | int => exact (by decide : Unseparated "int")
  | ofClass c => exact h.1
  | null | untyped | error | address | ofMethod => exact hTy.elim

/-- Types of parameters are known by their readable names. -/
theorem Lineal.eq_of_readableType (hLineal : r.Lineal) {ty' : Ty} (hTy : r.IsStored ty) (hTy' : r.IsStored ty')
    (hReadable : r.ReadableType ty) (hReadable' : r.ReadableType ty') (h : r.typeName ty = r.typeName ty') :
    ty = ty' := by
  cases ty with
  | int =>
    cases ty' with
    | int => rfl
    | ofClass c => exact absurd h.symm hReadable'.2
    | null | untyped | error | address | ofMethod => exact hTy'.elim
  | ofClass c =>
    cases ty' with
    | int => exact absurd h hReadable.2
    | ofClass c' => rw [hLineal.found.eq_of_name hTy hTy' h]
    | null | untyped | error | address | ofMethod => exact hTy'.elim
  | null | untyped | error | address | ofMethod => exact hTy.elim

/-- Of a signature that can be read back, the name and the types of the parameters are known. -/
theorem Lineal.params_eq_of_readable (hLineal : r.Lineal) {c' : ClassId}
    (hRoutine : r.RoutineOf c (r.methodInfo m)) (hRoutine' : r.RoutineOf c' (r.methodInfo m'))
    (hKind : (r.methodInfo m).kind = .method) (hKind' : (r.methodInfo m').kind = .method)
    (hReadable : r.Readable m) (hReadable' : r.Readable m')
    (h : (r.methodInfo m).signature = (r.methodInfo m').signature) :
    (r.methodInfo m).name = (r.methodInfo m').name ∧
      (r.methodInfo m).params.types = (r.methodInfo m').params.types := by
  rw [hRoutine.signature, hRoutine'.signature, hKind, hKind'] at h
  refine signature_inj_of_types hReadable.1 hReadable'.1 (by decide) ?_ ?_ ?_ h
  · exact fun ty hTy => unseparated_of_readableType (hRoutine.params ty hTy) (hReadable.2 ty hTy)
  · exact fun ty hTy => unseparated_of_readableType (hRoutine'.params ty hTy) (hReadable'.2 ty hTy)
  · intro ty hTy ty' hTy'
    exact hLineal.eq_of_readableType (hRoutine.params ty hTy) (hRoutine'.params ty' hTy')
      (hReadable.2 ty hTy) (hReadable'.2 ty' hTy')

namespace Settled

variable (h : r.Settled names)
include h

/-- A slot of a class holds, in the table of each of its subclasses, the method of the same signature
that is declared nearest to the subclass. -/
theorem getElem?_vmt (hm : (r.classInfo c).vmt[slot]? = some m) (hSub : r.isSubclass d c = true) :
    ∃ m', r.nearestVirtual d (r.methodInfo m).signature = some m' ∧
      (r.classInfo d).vmt[slot]? = some m' :=
  h.getElem?_vmt_of_vmtSlot (h.vmtSlot_of_getElem? hm) hSub

/-- What is recorded of a method found on a line of inheritance. -/
theorem routine_of_nearestVirtual (hFound : r.nearestVirtual c signature = some m) :
    (∃ a, r.RoutineOf a (r.methodInfo m)) ∧ (r.methodInfo m).kind = .method ∧
      (r.methodInfo m).signature = signature := by
  obtain ⟨a, -, hOwn, hSignature⟩ := nearestVirtual_eq_some hFound
  obtain ⟨hMem, hVirtual⟩ := List.mem_filter.mp hOwn
  exact ⟨⟨a, (h.coherent a).routine m hMem⟩, by simpa [MethodInfo.isVirtual] using hVirtual, hSignature⟩

theorem returnsBelow_self (hFound : r.nearestVirtual c signature = some m) : r.returnsBelow m m = true := by
  obtain ⟨⟨a, hRoutine⟩, hKind, -⟩ := h.routine_of_nearestVirtual hFound
  obtain ⟨ty, hReturns, -⟩ := hRoutine.returns hKind
  exact returnsBelow_iff.mpr ⟨ty, ty, hReturns, hReturns, isAssignable_self r ty⟩

/-- One step down a line of inheritance: a class overrides the method in a slot or takes it over. -/
theorem returnsBelow_of_parent (hNarrows : r.NarrowsReturns) (hParent : r.parent c = some p)
    (hm : (r.classInfo p).vmt[slot]? = some m) (hm' : (r.classInfo c).vmt[slot]? = some m') :
    r.returnsBelow m' m = true := by
  obtain ⟨m₁, hNearest, hSlot⟩ := h.getElem?_vmt hm (isSubclass_of_parent hParent)
  obtain ⟨m₂, hAbove, hSlot'⟩ := h.getElem?_vmt hm (isSubclass_self r p)
  cases hm'.symm.trans hSlot
  cases hm.symm.trans hSlot'
  rw [h.lineal.acyclic.nearestVirtual_of_parent hParent] at hNearest
  cases hOwn : (r.ownVirtual c).find? (r.hasSignature (r.methodInfo m).signature) with
  | none =>
    rw [hOwn, Option.none_or, hAbove] at hNearest
    cases hNearest
    exact h.returnsBelow_self hAbove
  | some own =>
    rw [hOwn, Option.some_or] at hNearest
    cases hNearest
    exact hNarrows c (mem_classIds.mpr (lt_of_parent hParent)) p hParent m'
      (List.mem_of_find?_eq_some hOwn) m (List.mem_of_getElem? hm)
      (hasSignature_iff.mp (List.find?_some hOwn)).symm

/-- The whole line: results are narrowed from a class to its subclasses. -/
theorem returnsBelow_of_isSubclass (hNarrows : r.NarrowsReturns) (hSub : r.isSubclass d c = true)
    (hm : (r.classInfo c).vmt[slot]? = some m) (hm' : (r.classInfo d).vmt[slot]? = some m') :
    r.returnsBelow m' m = true := by
  have hReaches := mem_chain_iff.mp (isSubclass_iff.mp hSub)
  induction hReaches using Relation.ReflTransGen.head_induction_on generalizing m' with
  | refl =>
    cases hm.symm.trans hm'
    obtain ⟨m', hNearest, hSlot⟩ := h.getElem?_vmt hm hSub
    cases hm.symm.trans hSlot
    exact h.returnsBelow_self hNearest
  | @head d e hParent hReaches ih =>
    have hAbove : r.isSubclass e c = true := isSubclass_iff.mpr (mem_chain_iff.mpr hReaches)
    obtain ⟨middle, -, hMiddle⟩ := h.getElem?_vmt hm hAbove
    exact returnsBelow_trans (h.returnsBelow_of_parent hNarrows hParent hMiddle hm')
      (ih hAbove hMiddle)

/-- A method that a class declares stands in the slot of its signature. -/
theorem getElem?_vmt_of_ownVirtual (hParent : r.parent c = some p) (hOwn : m ∈ r.ownVirtual c)
    (hm' : (r.classInfo p).vmt[slot]? = some m')
    (hSignature : (r.methodInfo m').signature = (r.methodInfo m).signature) :
    (r.classInfo c).vmt[slot]? = some m := by
  obtain ⟨found, hNearest, hSlot⟩ := h.getElem?_vmt hm' (isSubclass_of_parent hParent)
  rw [hSignature, h.lineal.acyclic.nearestVirtual_of_parent hParent,
    h.coherent.distinct.find?_ownVirtual hOwn, Option.some_or] at hNearest
  rw [hSlot, hNearest]

/-- Results are narrowed along all lines of inheritance just if every class narrows those of its
parent. -/
theorem narrowsReturns_iff :
    (∀ (c d : ClassId) (slot : Nat) (m m' : MethodId), r.isSubclass d c = true →
      (r.classInfo c).vmt[slot]? = some m →
        (r.classInfo d).vmt[slot]? = some m' → r.returnsBelow m' m = true) ↔ r.NarrowsReturns := by
  constructor
  · intro hAll c _ p hParent m hOwn m' hm' hSignature
    obtain ⟨slot, hSlot⟩ := List.mem_iff_getElem?.mp hm'
    exact hAll p c slot m' m (isSubclass_of_parent hParent) hSlot
      (h.getElem?_vmt_of_ownVirtual hParent hOwn hSlot hSignature)
  · intro hNarrows c d slot m m' hSub hm hm'
    exact h.returnsBelow_of_isSubclass hNarrows hSub hm hm'

end Settled
end Registry

namespace Program

open Registry

/-- What holds of overriding in a program as it is read that analysis finds no terminal fault in. A
slot of a class holds a method of the same signature in the table of each of its subclasses, and if
the signatures can be read back, a method of the same name with parameters of the same types. Results
are not compared: they are narrowed from a class to all its subclasses just if each class that
overrides a method declares a result that may stand for the one of its parent. -/
theorem overrides_agree (p : Program) (hFresh : p.isFresh = true) (hQuiet : Quiet p.diagnostics) :
    (∀ (c d : ClassId) (slot : Nat) (m : MethodId), p.env.types.isSubclass d c = true →
      (p.env.types.classInfo c).vmt[slot]? = some m →
      ∃ m', (p.env.types.classInfo d).vmt[slot]? = some m' ∧
        (p.env.types.methodInfo m').signature = (p.env.types.methodInfo m).signature ∧
        (p.env.types.Readable m' → p.env.types.Readable m →
          (p.env.types.methodInfo m').name = (p.env.types.methodInfo m).name ∧
          (p.env.types.methodInfo m').params.types = (p.env.types.methodInfo m).params.types)) ∧
    ((∀ (c d : ClassId) (slot : Nat) (m m' : MethodId), p.env.types.isSubclass d c = true →
      (p.env.types.classInfo c).vmt[slot]? = some m →
      (p.env.types.classInfo d).vmt[slot]? = some m' → p.env.types.returnsBelow m' m = true) ↔
        p.env.types.NarrowsReturns) := by
  have h := (analyzed_of_quiet hFresh trivial (.trivial p) hQuiet).wellFormed.settled
  refine ⟨?_, h.narrowsReturns_iff⟩
  intro c d slot m hSub hm
  obtain ⟨m', hNearest, hSlot⟩ := h.getElem?_vmt hm hSub
  obtain ⟨⟨a, hRoutine⟩, hKind, hSignature⟩ := h.routine_of_nearestVirtual hNearest
  -- The method of the class itself is the nearest one to it, so it is recorded alike.
  obtain ⟨_, hNearest', hSlot'⟩ := h.getElem?_vmt hm (isSubclass_self _ c)
  cases hm.symm.trans hSlot'
  obtain ⟨⟨a', hRoutine'⟩, hKind', -⟩ := h.routine_of_nearestVirtual hNearest'
  refine ⟨m', hSlot, hSignature, ?_⟩
  intro hReadable hReadable'
  exact h.lineal.params_eq_of_readable hRoutine hRoutine' hKind hKind' hReadable hReadable' hSignature

/-- A method that narrows the result of one it inherits from above its parent. -/
def narrowing : Program where
  classes := [
    { line := 1, name := "A", members := [.method {
        line := 2, name := "f", returns := some (.named "A")
        params := [⟨2, .named "A", "x"⟩, ⟨2, .int, "n"⟩]
        body := [.ret 3 (some (.var 3 "x" none)) none] }] },
    { line := 5, name := "B", parent := some "A" },
    { line := 7, name := "C", parent := some "B", members := [.method {
        line := 8, name := "f", returns := some (.named "C")
        params := [⟨8, .named "A", "y"⟩, ⟨8, .int, "k"⟩]
        body := [.ret 9 (some (.this 9)) none] }] }]
  main := ⟨11, []⟩

theorem overrides_agree_narrowing : narrowing.isFresh = true ∧ Quiet narrowing.diagnostics ∧
    (∃ m m', m ≠ m' ∧ (narrowing.env.types.classInfo ⟨1⟩).vmt[1]? = some m ∧
      (narrowing.env.types.classInfo ⟨3⟩).vmt[1]? = some m' ∧
      (narrowing.env.types.methodInfo m').params.types =
        (narrowing.env.types.methodInfo m).params.types) ∧
    ∀ (c d : ClassId) (slot : Nat) (m m' : MethodId), narrowing.env.types.isSubclass d c = true →
      (narrowing.env.types.classInfo c).vmt[slot]? = some m →
      (narrowing.env.types.classInfo d).vmt[slot]? = some m' →
        narrowing.env.types.returnsBelow m' m = true := by
  have hFresh : narrowing.isFresh = true := by decide
  have hQuiet : Quiet narrowing.diagnostics := by decide +kernel
  obtain ⟨hSlots, hReturns⟩ := overrides_agree narrowing hFresh hQuiet
  refine ⟨hFresh, hQuiet, ?_, hReturns.mpr (by decide +kernel)⟩
  obtain ⟨m', hSlot, -, hParams⟩ := hSlots ⟨1⟩ ⟨3⟩ 1 ⟨3⟩ (by decide +kernel) (by decide +kernel)
  have hm' : m' = ⟨4⟩ := by
    have hTable : (narrowing.env.types.classInfo ⟨3⟩).vmt[1]? = some ⟨4⟩ := by decide +kernel
    exact (Option.some.inj (hTable.symm.trans hSlot)).symm
  subst hm'
  exact ⟨⟨3⟩, ⟨4⟩, by decide, by decide +kernel, hSlot,
    (hParams (by decide +kernel) (by decide +kernel)).2⟩

/-- An int method overridden by one that returns an object, and called as the former. -/
def retyped : Program where
  classes := [
    { line := 1, name := "A", members := [.method {
        line := 2, name := "f", returns := some .int
        body := [.ret 3 (some (.int 3 1)) none] }] },
    { line := 5, name := "B", parent := some "A", members := [.method {
        line := 6, name := "f", returns := some (.named "B")
        body := [.ret 7 (some (.this 7)) none] }] }]
  main := ⟨9, [
    .declare 10 (.named "A") ["a"],
    .expr 11 (.assign 11 (.var 11 "a" none) (.new 11 "B" [] none none)),
    .print 12 (.call 12 (.object (.var 12 "a" none)) "f" [] none none)]⟩

/-- A method whose name looks like the signature of the one that overrides it. -/
def respelled : Program where
  classes := [
    { line := 1, name := "A", members := [.method {
        line := 2, name := "f$int", returns := some .int
        body := [.ret 3 (some (.int 3 1)) none] }] },
    { line := 5, name := "B", parent := some "A", members := [.method {
        line := 6, name := "f", returns := some .int
        params := [⟨6, .int, "n"⟩]
        body := [.ret 7 (some (.var 7 "n" none)) none] }] }]
  main := ⟨9, []⟩

/-- Neither results nor, where signatures cannot be read back, parameters need agree. -/
theorem overrides_disagree : (retyped.isFresh = true ∧ retyped.diagnostics = [] ∧
      retyped.env.types.isSubclass ⟨2⟩ ⟨1⟩ = true ∧
      (retyped.env.types.classInfo ⟨1⟩).vmt[1]? = some ⟨3⟩ ∧
      (retyped.env.types.classInfo ⟨2⟩).vmt[1]? = some ⟨4⟩ ∧
      (retyped.env.types.methodInfo ⟨3⟩).returns = some .int ∧
      (retyped.env.types.methodInfo ⟨4⟩).returns = some (.ofClass ⟨2⟩) ∧
      retyped.env.types.isAssignable (.ofClass ⟨2⟩) .int = false) ∧
    (respelled.isFresh = true ∧ respelled.diagnostics = [] ∧
      respelled.env.types.isSubclass ⟨2⟩ ⟨1⟩ = true ∧
      (respelled.env.types.classInfo ⟨1⟩).vmt[1]? = some ⟨3⟩ ∧
      (respelled.env.types.classInfo ⟨2⟩).vmt[1]? = some ⟨4⟩ ∧
      (respelled.env.types.methodInfo ⟨3⟩).params.types = [] ∧
      (respelled.env.types.methodInfo ⟨4⟩).params.types = [.int]) := by
  decide +kernel

end Program
end TLang
