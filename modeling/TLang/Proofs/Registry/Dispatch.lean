import TLang.Proofs.Registry.Lineage
import TLang.Registry.Dispatch

/-! Dispatch tables. Overriding never moves a signature, so a signature has one slot in the table of
a class and of all its subclasses; and the method in that slot is the one declared nearest to the
class whose table it is. -/
namespace TLang.Registry

open List

/-- The method has the signature. -/
def hasSignature (r : Registry) (signature : String) (m : MethodId) : Bool :=
  (r.methodInfo m).signature == signature

/-- The virtual methods that a class itself declares. -/
def ownVirtual (r : Registry) (c : ClassId) : List MethodId :=
  (r.classInfo c).methods.filter fun m => (r.methodInfo m).isVirtual

/-- The virtual method of a signature that the nearest class on a line of inheritance declares. -/
def nearestVirtual (r : Registry) (c : ClassId) (signature : String) : Option MethodId :=
  (r.chain c).findSome? fun a => (r.ownVirtual a).find? (r.hasSignature signature)

/-- No class declares two methods of one signature. -/
def SignaturesDistinct (r : Registry) : Prop :=
  ∀ c, ((r.classInfo c).methods.map fun m => (r.methodInfo m).signature).Nodup

variable {r : Registry}

theorem hasSignature_iff {signature : String} {m : MethodId} :
    r.hasSignature signature m = true ↔ (r.methodInfo m).signature = signature := by
  simp [hasSignature]

section

variable (r)

theorem virtualMethods_eq (c : ClassId) :
    r.virtualMethods c = (r.chain c).reverse.flatMap r.ownVirtual := rfl

theorem slotOf_cons (m : MethodId) (slots : List MethodId) (signature : String) :
    r.slotOf (m :: slots) signature =
      if r.hasSignature signature m then some 0 else (r.slotOf slots signature).map (· + 1) := by
  simp [slotOf, hasSignature, List.findIdx?_cons]

@[simp] theorem override_nil (m : MethodId) : r.override [] m = [m] := rfl

/-- Overriding as a recursion over the table: the first entry of the signature is replaced. -/
theorem override_cons (first m : MethodId) (slots : List MethodId) : r.override (first :: slots) m =
      if r.hasSignature (r.methodInfo m).signature first then m :: slots
      else first :: r.override slots m := by
  simp only [override, slotOf_cons]
  by_cases hFirst : r.hasSignature (r.methodInfo m).signature first
  · simp [hFirst]
  · cases hSlot : r.slotOf slots (r.methodInfo m).signature <;> simp [hFirst]

end

/-- A signature keeps its slot when another method is added to the table. -/
theorem slotOf_override {slots : List MethodId} {signature : String} {slot : Nat}
    (hSlot : r.slotOf slots signature = some slot) (m : MethodId) :
    r.slotOf (r.override slots m) signature = some slot := by
  induction slots generalizing slot with
  | nil => simp [slotOf] at hSlot
  | cons first slots ih =>
    rw [slotOf_cons] at hSlot
    rw [override_cons]
    by_cases hSame : r.hasSignature (r.methodInfo m).signature first
    · -- The new method has the signature of the one it replaces, so every test answers alike.
      have hTest : r.hasSignature signature m = r.hasSignature signature first := by
        rw [hasSignature, hasSignature, hasSignature_iff.mp hSame]
      rw [if_pos hSame, slotOf_cons, hTest]
      exact hSlot
    · rw [if_neg hSame, slotOf_cons]
      by_cases hFirst : r.hasSignature signature first
      · simpa [hFirst] using hSlot
      · simp only [hFirst, Bool.false_eq_true, if_false, Option.map_eq_some_iff] at hSlot ⊢
        obtain ⟨below, hBelow, rfl⟩ := hSlot
        exact ⟨below, ih hBelow, rfl⟩

theorem slotOf_foldl_override {slots : List MethodId} {signature : String} {slot : Nat}
    (hSlot : r.slotOf slots signature = some slot) (added : List MethodId) :
    r.slotOf (added.foldl r.override slots) signature = some slot := by
  induction added generalizing slots with
  | nil => exact hSlot
  | cons m added ih => exact ih (slotOf_override hSlot m)

/-- The signatures in a table, by slot. -/
def signatures (r : Registry) (slots : List MethodId) : List String :=
  slots.map fun m => (r.methodInfo m).signature

/-- Overriding changes no signature of a table. -/
theorem signatures_override (r : Registry) (slots : List MethodId) (m : MethodId) :
    r.signatures (r.override slots m) =
      if (r.methodInfo m).signature ∈ r.signatures slots then r.signatures slots
      else r.signatures slots ++ [(r.methodInfo m).signature] := by
  induction slots with
  | nil => simp [signatures]
  | cons first slots ih =>
    rw [override_cons]
    by_cases hFirst : r.hasSignature (r.methodInfo m).signature first
    · have hEq := hasSignature_iff.mp hFirst
      rw [if_pos hFirst]
      simp [signatures, hEq]
    · have hNe : (r.methodInfo m).signature ≠ (r.methodInfo first).signature :=
        fun hEq => hFirst (hasSignature_iff.mpr hEq.symm)
      rw [if_neg hFirst]
      have hCons : ∀ slots, r.signatures (first :: slots) =
          (r.methodInfo first).signature :: r.signatures slots := fun _ => rfl
      rw [hCons, hCons, ih]
      by_cases hMem : (r.methodInfo m).signature ∈ r.signatures slots <;> simp [hMem, hNe]

/-- No signature has two slots. -/
theorem nodup_signatures_foldl (r : Registry) (added : List MethodId) {slots : List MethodId}
    (h : (r.signatures slots).Nodup) : (r.signatures (added.foldl r.override slots)).Nodup := by
  induction added generalizing slots with
  | nil => exact h
  | cons m added ih =>
    apply ih
    rw [signatures_override]
    split
    · exact h
    · rename_i hNew
      rw [← concat_eq_append]
      exact h.concat hNew

theorem nodup_signatures_dispatchTable (r : Registry) (c : ClassId) :
    (r.signatures (r.dispatchTable c)).Nodup :=
  nodup_signatures_foldl r _ nodup_nil

/-- The slot of a method is that of its signature. -/
theorem slotOf_of_getElem? {slots : List MethodId} (h : (r.signatures slots).Nodup) {slot : Nat}
    {m : MethodId} (hm : slots[slot]? = some m) :
    r.slotOf slots (r.methodInfo m).signature = some slot := by
  induction slots generalizing slot with
  | nil => simp at hm
  | cons first slots ih =>
    obtain ⟨hFirst, hRest⟩ := nodup_cons.mp h
    rw [slotOf_cons]
    cases slot with
    | zero =>
      cases hm
      exact if_pos (hasSignature_iff.mpr rfl)
    | succ slot =>
      rw [List.getElem?_cons_succ] at hm
      have hNe : ¬ r.hasSignature (r.methodInfo m).signature first = true := by
        rw [hasSignature_iff]
        intro hEq
        exact hFirst (mem_map.mpr ⟨m, mem_of_getElem? hm, hEq.symm⟩)
      rw [if_neg hNe, ih hRest hm]
      rfl

theorem find?_override (r : Registry) (slots : List MethodId) (m : MethodId) (signature : String) :
    (r.override slots m).find? (r.hasSignature signature) =
      if r.hasSignature signature m then some m else slots.find? (r.hasSignature signature) := by
  induction slots with
  | nil => by_cases hm : r.hasSignature signature m <;> simp [hm]
  | cons first slots ih =>
    rw [override_cons]
    by_cases hSame : r.hasSignature (r.methodInfo m).signature first
    · have hTest : r.hasSignature signature first = r.hasSignature signature m := by
        rw [hasSignature, hasSignature, hasSignature_iff.mp hSame]
      rw [if_pos hSame, List.find?_cons, List.find?_cons, hTest]
      cases r.hasSignature signature m <;> simp
    · rw [if_neg hSame, List.find?_cons, List.find?_cons, ih]
      cases hFirst : r.hasSignature signature first with
      | false => simp
      | true =>
        have hNot : r.hasSignature signature m = false := by
          by_contra hm
          have hm' := hasSignature_iff.mp (Bool.not_eq_false _ ▸ hm)
          exact hSame (hasSignature_iff.mpr ((hasSignature_iff.mp hFirst).trans hm'.symm))
        simp [hNot]

/-- The last method of a signature that was added is the one in the table. -/
theorem find?_foldl_override (r : Registry) (slots added : List MethodId) (signature : String) :
    (added.foldl r.override slots).find? (r.hasSignature signature) =
      (added.reverse.find? (r.hasSignature signature)).or
        (slots.find? (r.hasSignature signature)) := by
  induction added generalizing slots with
  | nil => simp
  | cons m added ih =>
    rw [foldl_cons, ih, find?_override, reverse_cons, List.find?_append, Option.or_assoc]
    congr 1
    by_cases hm : r.hasSignature signature m <;> simp [hm]

theorem getElem?_of_slotOf {slots : List MethodId} {signature : String} {slot : Nat}
    (hSlot : r.slotOf slots signature = some slot) :
    slots[slot]? = slots.find? (r.hasSignature signature) := by
  induction slots generalizing slot with
  | nil => simp [slotOf] at hSlot
  | cons first slots ih =>
    rw [slotOf_cons] at hSlot
    by_cases hFirst : r.hasSignature signature first
    · simp only [hFirst, if_true, Option.some.injEq] at hSlot
      simp [← hSlot, hFirst]
    · simp only [hFirst, Bool.false_eq_true, if_false, Option.map_eq_some_iff] at hSlot
      obtain ⟨below, hBelow, rfl⟩ := hSlot
      simp [hFirst, ih hBelow]

/-- A signature has a slot just if some entry of the table has it. -/
theorem exists_slotOf_iff {slots : List MethodId} {signature : String} :
    (∃ slot, r.slotOf slots signature = some slot) ↔
      ∃ m ∈ slots, (r.methodInfo m).signature = signature := by
  rw [← Option.isSome_iff_exists, slotOf, List.findIdx?_isSome]
  simp

theorem find?_dispatchTable (r : Registry) (c : ClassId) (signature : String) :
    (r.dispatchTable c).find? (r.hasSignature signature) =
      (r.virtualMethods c).reverse.find? (r.hasSignature signature) := by
  rw [dispatchTable, find?_foldl_override]
  simp

theorem mem_virtualMethods_iff {c : ClassId} {m : MethodId} : m ∈ r.virtualMethods c ↔
      ∃ a ∈ r.chain c, m ∈ (r.classInfo a).methods ∧ (r.methodInfo m).isVirtual = true := by
  simp [virtualMethods]

theorem mem_of_mem_override {slots : List MethodId} {m k : MethodId} (h : k ∈ r.override slots m) :
    k ∈ slots ∨ k = m := by
  rw [override] at h
  split at h
  · exact mem_or_eq_of_mem_set h
  · exact (mem_append.mp h).imp_right mem_singleton.mp

theorem mem_of_mem_foldl_override {slots added : List MethodId} {k : MethodId}
    (h : k ∈ added.foldl r.override slots) : k ∈ slots ∨ k ∈ added := by
  induction added generalizing slots with
  | nil => exact .inl h
  | cons m added ih =>
    rcases ih h with hSlots | hAdded
    · rcases mem_of_mem_override hSlots with hSlots | rfl
      · exact .inl hSlots
      · exact .inr mem_cons_self
    · exact .inr (mem_cons_of_mem _ hAdded)

/-- A table holds nothing but virtual methods of its line. -/
theorem mem_virtualMethods_of_mem_dispatchTable {c : ClassId} {m : MethodId} (h : m ∈ r.dispatchTable c) :
    m ∈ r.virtualMethods c :=
  (mem_of_mem_foldl_override h).resolve_left not_mem_nil

/-- Every virtual method declared on the line of a class has a slot in the table of the class. -/
theorem exists_slotOf_dispatchTable {c a : ClassId} {m : MethodId} (ha : a ∈ r.chain c)
    (hm : m ∈ (r.classInfo a).methods) (hVirtual : (r.methodInfo m).isVirtual = true) :
    ∃ slot, r.slotOf (r.dispatchTable c) (r.methodInfo m).signature = some slot := by
  have hMem : m ∈ (r.virtualMethods c).reverse :=
    mem_reverse.mpr (mem_virtualMethods_iff.mpr ⟨a, ha, hm, hVirtual⟩)
  have hFound : ((r.virtualMethods c).reverse.find?
      (r.hasSignature (r.methodInfo m).signature)).isSome = true :=
    List.find?_isSome.mpr ⟨m, hMem, hasSignature_iff.mpr rfl⟩
  rw [← find?_dispatchTable] at hFound
  obtain ⟨k, hk, hSignature⟩ := List.find?_isSome.mp hFound
  exact exists_slotOf_iff.mpr ⟨k, hk, hasSignature_iff.mp hSignature⟩

section

variable (h : r.SignaturesDistinct)
include h

/-- A class declares one virtual method of a signature at most. -/
theorem SignaturesDistinct.eq_of_ownVirtual {c : ClassId}
    {m m' : MethodId} (hm : m ∈ r.ownVirtual c) (hm' : m' ∈ r.ownVirtual c)
    (hSignature : (r.methodInfo m).signature = (r.methodInfo m').signature) : m = m' := by
  have hNodup : ((r.ownVirtual c).map fun m => (r.methodInfo m).signature).Nodup :=
    (h c).sublist (filter_sublist.map _)
  exact inj_on_of_nodup_map hNodup hm hm' hSignature

theorem SignaturesDistinct.find?_ownVirtual {c : ClassId}
    {m : MethodId} (hm : m ∈ r.ownVirtual c) :
    (r.ownVirtual c).find? (r.hasSignature (r.methodInfo m).signature) = some m := by
  obtain ⟨m', hFound⟩ := Option.isSome_iff_exists.mp
    (List.find?_isSome.mpr ⟨m, hm, hasSignature_iff.mpr rfl⟩)
  rw [hFound, h.eq_of_ownVirtual (mem_of_find?_eq_some hFound) hm
    (hasSignature_iff.mp (List.find?_some hFound))]

/-- The declarations of one class are looked at from either end alike. -/
theorem SignaturesDistinct.find?_reverse (c : ClassId)
    (signature : String) :
    (r.ownVirtual c).reverse.find? (r.hasSignature signature) =
      (r.ownVirtual c).find? (r.hasSignature signature) := by
  cases hLast : (r.ownVirtual c).reverse.find? (r.hasSignature signature) with
  | none =>
    rw [List.find?_eq_none] at hLast
    exact (List.find?_eq_none.mpr (by simpa using hLast)).symm
  | some m =>
    have hm := mem_reverse.mp (mem_of_find?_eq_some hLast)
    rw [← hasSignature_iff.mp (List.find?_some hLast), h.find?_ownVirtual hm]

theorem SignaturesDistinct.find?_eq_nearestVirtual (c : ClassId)
    (signature : String) :
    (r.dispatchTable c).find? (r.hasSignature signature) = r.nearestVirtual c signature := by
  rw [find?_dispatchTable, virtualMethods_eq, reverse_flatMap, reverse_reverse,
    List.find?_flatMap, nearestVirtual]
  congr 1
  funext a
  exact h.find?_reverse a signature

end

/-- The table of a subclass starts from the table of its ancestor. -/
theorem Acyclic.dispatchTable_of_mem (h : r.Acyclic) {c a : ClassId} (ha : a ∈ r.chain c) :
    ∃ added : List MethodId, r.dispatchTable c = added.foldl r.override (r.dispatchTable a) := by
  obtain ⟨below, hChain⟩ := h.chain_eq_append ha
  refine ⟨below.reverse.flatMap r.ownVirtual, ?_⟩
  rw [dispatchTable, virtualMethods_eq, hChain, reverse_append, flatMap_append, foldl_append]
  rfl

/-- The slot of a signature in the table of a class holds, in the table of each of its subclasses,
the method of that signature declared nearest to the subclass. -/
theorem Acyclic.getElem?_dispatchTable (h : r.Acyclic) (hDistinct : r.SignaturesDistinct)
    {c a : ClassId} {signature : String} {slot : Nat} (ha : a ∈ r.chain c)
    (hSlot : r.slotOf (r.dispatchTable a) signature = some slot) :
    ∃ m, r.nearestVirtual c signature = some m ∧ (r.dispatchTable c)[slot]? = some m := by
  obtain ⟨added, hTable⟩ := h.dispatchTable_of_mem ha
  have hBelow : r.slotOf (r.dispatchTable c) signature = some slot :=
    hTable ▸ slotOf_foldl_override hSlot added
  rw [getElem?_of_slotOf hBelow, hDistinct.find?_eq_nearestVirtual]
  obtain ⟨m, hm, hSignature⟩ := exists_slotOf_iff.mp ⟨slot, hBelow⟩
  obtain ⟨m', hFound⟩ := Option.isSome_iff_exists.mp
    (List.find?_isSome.mpr ⟨m, hm, hasSignature_iff.mpr hSignature⟩)
  rw [hDistinct.find?_eq_nearestVirtual] at hFound
  exact ⟨m', hFound, hFound⟩

/-- A class takes over what it does not declare itself. -/
theorem Acyclic.nearestVirtual_of_parent (h : r.Acyclic) {c p : ClassId}
    (hParent : r.parent c = some p) (signature : String) :
    r.nearestVirtual c signature =
      ((r.ownVirtual c).find? (r.hasSignature signature)).or (r.nearestVirtual p signature) := by
  rw [nearestVirtual, h.chain_of_parent hParent, List.findSome?_cons]
  cases (r.ownVirtual c).find? (r.hasSignature signature) <;> rfl

theorem nearestVirtual_eq_some {c : ClassId} {signature : String} {m : MethodId}
    (h : r.nearestVirtual c signature = some m) :
    ∃ a ∈ r.chain c, m ∈ r.ownVirtual a ∧ (r.methodInfo m).signature = signature := by
  obtain ⟨a, ha, hFound⟩ := exists_of_findSome?_eq_some h
  exact ⟨a, ha, mem_of_find?_eq_some hFound, hasSignature_iff.mp (List.find?_some hFound)⟩

end TLang.Registry
