import TLang.Proofs.Consistency

/-! The shape of dispatch tables, whatever is reported. A table has one slot for each signature of the
virtual methods on the line of its class, the slot holds the method that is declared nearest to the
class, and the tables of subclasses start with the same signatures. -/
namespace TLang

open List

variable {m : MethodId} {signature : String}

namespace Registry

variable {r : Registry} {c d : ClassId}

/-- The class itself declares a virtual method of the signature. -/
def DeclaresVirtual (r : Registry) (signature : String) (c : ClassId) : Prop :=
  ∃ m ∈ (r.classInfo c).methods, (r.methodInfo m).kind = .method ∧ (r.methodInfo m).signature = signature

/-- The signatures of the virtual methods that the classes on a line declare, as often as they are
declared. -/
def lineSignatures (r : Registry) (c : ClassId) : List String :=
  (r.chain c).flatMap fun a => r.signatures (r.ownVirtual a)

/-- What the table of a class looks like. -/
structure TableShape (r : Registry) (c : ClassId) : Prop where
  virtual : ∀ m ∈ (r.classInfo c).vmt, (r.methodInfo m).kind = .method
  nodup : (r.signatures (r.classInfo c).vmt).Nodup
  length : (r.classInfo c).vmt.length = (r.lineSignatures c).dedup.length
  nearest : ∀ (slot : Nat) m, (r.classInfo c).vmt[slot]? = some m → ∃ owner,
    r.NearestOn c (r.DeclaresVirtual (r.methodInfo m).signature) owner ∧ m ∈ (r.classInfo owner).methods
  subclass : ∀ d, r.isSubclass d c = true →
    r.signatures (r.classInfo c).vmt <+: r.signatures (r.classInfo d).vmt ∧
    ∀ signature ∈ r.signatures (r.classInfo c).vmt, r.vmtSlot d signature = r.vmtSlot c signature

theorem mem_ownVirtual_iff : m ∈ r.ownVirtual c ↔
    m ∈ (r.classInfo c).methods ∧ (r.methodInfo m).kind = .method := by
  simp [ownVirtual, MethodInfo.isVirtual]

theorem signatures_isPrefix_foldl (r : Registry) (slots added : List MethodId) :
    r.signatures slots <+: r.signatures (added.foldl r.override slots) := by
  induction added generalizing slots with
  | nil => exact prefix_rfl
  | cons m added ih =>
    refine List.IsPrefix.trans ?_ (ih (r.override slots m))
    rw [signatures_override]
    split
    · exact prefix_rfl
    · exact prefix_append _ _

theorem mem_signatures_dispatchTable_iff :
    signature ∈ r.signatures (r.dispatchTable c) ↔ signature ∈ r.lineSignatures c := by
  simp only [lineSignatures, signatures, mem_map, mem_flatMap]
  constructor
  · rintro ⟨m, hm, rfl⟩
    obtain ⟨a, ha, hOwn, hVirtual⟩ := mem_virtualMethods_iff.mp (mem_virtualMethods_of_mem_dispatchTable hm)
    exact ⟨a, ha, m, mem_filter.mpr ⟨hOwn, hVirtual⟩, rfl⟩
  · rintro ⟨a, ha, m, hm, rfl⟩
    obtain ⟨hOwn, hVirtual⟩ := mem_filter.mp hm
    exact exists_slotOf_iff.mp (exists_slotOf_dispatchTable ha hOwn hVirtual)

/-- A table has one slot for each signature of its line. -/
theorem length_dispatchTable (r : Registry) (c : ClassId) :
    (r.dispatchTable c).length = (r.lineSignatures c).dedup.length := by
  have hPerm : (r.signatures (r.dispatchTable c)).Perm (r.lineSignatures c).dedup := by
    rw [perm_ext_iff_of_nodup (nodup_signatures_dispatchTable r c) (nodup_dedup _)]
    intro signature
    rw [mem_dedup, mem_signatures_dispatchTable_iff]
  rw [← hPerm.length_eq, signatures, length_map]

theorem nearestOn_of_nearestVirtual (h : r.nearestVirtual c signature = some m) :
    ∃ owner, r.NearestOn c (r.DeclaresVirtual signature) owner ∧ m ∈ (r.classInfo owner).methods := by
  obtain ⟨below, owner, above, hChain, hFound, hBelow⟩ := List.findSome?_eq_some_iff.mp h
  obtain ⟨hOwn, hKind⟩ := mem_ownVirtual_iff.mp (mem_of_find?_eq_some hFound)
  refine ⟨owner, ⟨⟨m, hOwn, hKind, hasSignature_iff.mp (List.find?_some hFound)⟩, below, above, hChain, ?_⟩,
    hOwn⟩
  rintro a ha ⟨m', hm', hKind', hSignature⟩
  have hNone := List.find?_eq_none.mp (hBelow a ha) m' (mem_ownVirtual_iff.mpr ⟨hm', hKind'⟩)
  exact hNone (hasSignature_iff.mpr hSignature)

/-- In a consistent registry all tables have the right shape. -/
theorem Consistent.tableShape (h : r.Consistent) (hc : c.index < r.classes.length) : r.TableShape c := by
  have hTable := h.tables c hc
  have hNodup : (r.signatures (r.classInfo c).vmt).Nodup := hTable ▸ nodup_signatures_dispatchTable r c
  refine ⟨?_, hNodup, hTable ▸ length_dispatchTable r c, ?_, ?_⟩
  · intro m hm
    rw [hTable] at hm
    obtain ⟨-, -, -, hVirtual⟩ := mem_virtualMethods_iff.mp (mem_virtualMethods_of_mem_dispatchTable hm)
    exact beq_iff_eq.mp hVirtual
  · intro slot m hm
    have hFound := getElem?_of_slotOf (slotOf_of_getElem? hNodup hm)
    rw [hm, hTable, h.distinct.find?_eq_nearestVirtual] at hFound
    exact nearestOn_of_nearestVirtual hFound.symm
  · intro d hSub
    have hMem := isSubclass_iff.mp hSub
    have hTable' := h.tables d (h.lineal.acyclic.lt_of_mem_chain hMem hc)
    obtain ⟨added, hAdded⟩ := h.lineal.acyclic.dispatchTable_of_mem hMem
    simp only [vmtSlot, hTable, hTable', hAdded]
    refine ⟨signatures_isPrefix_foldl r _ added, ?_⟩
    intro signature hSignature
    obtain ⟨m, hm, hEq⟩ := mem_map.mp hSignature
    obtain ⟨slot, hSlot⟩ := exists_slotOf_iff.mpr ⟨m, hm, hEq⟩
    rw [hSlot]
    exact slotOf_foldl_override hSlot added

end Registry

namespace Program

open Registry

variable {p : Program}

/-- After the analysis of a program as it is read, whatever was reported, the table of every class has
one slot for each signature on its line, filled by the nearest declaration, and subclasses keep the
slots. -/
theorem analysis_tableShape (p : Program) (hFresh : p.isFresh = true) (c : ClassId)
    (hc : c.index < p.env.types.classes.length) : p.env.types.TableShape c :=
  (consistent_analyze hFresh).1.tableShape hc

/-- Methods that are overridden over two levels by classes declared before their parents, a method that is
declared twice, a type that is not known, and a class that extends itself. -/
def disputed : Program where
  classes := [
    { line := 1, name := "Leaf", parent := some "Mid", members := [
      .method { line := 2, name := "h", returns := some .int },
      .method { line := 3, name := "f", returns := some .int }] },
    { line := 4, name := "Mid", parent := some "Base", members := [
      .method { line := 5, name := "g", params := [⟨5, .named "No", "x"⟩] },
      .method { line := 6, name := "f", returns := some .int },
      .method { line := 7, kind := .constructor, name := "Mid" }] },
    { line := 8, name := "Base", members := [
      .method { line := 9, name := "f", returns := some .int },
      .method { line := 10, name := "g" },
      .method { line := 11, name := "g" }] },
    { line := 12, name := "Loop", parent := some "Loop", members := [
      .method { line := 13, name := "f" }] }]
  main := ⟨14, []⟩

theorem analysis_tableShape_disputed : disputed.isFresh = true ∧
    disputed.diagnostics.any Diagnostic.isTerminal = true ∧
    ∃ c : ClassId, c.index < disputed.env.types.classes.length ∧ disputed.env.types.TableShape c ∧
      disputed.env.types.lookupClass "Leaf" = some c ∧
      ((disputed.env.types.classInfo c).vmt.map fun m => (disputed.env.types.methodInfo m).label) =
        ["Object$equals$Object", "Leaf$f", "Base$g", "Mid$g$error", "Leaf$h"] :=
  ⟨by decide, by decide +kernel, ⟨1⟩, by decide +kernel,
    analysis_tableShape disputed (by decide) ⟨1⟩ (by decide +kernel), by decide +kernel, by decide +kernel⟩

end Program
end TLang
