import TLang.Proofs.Registry.Lineage
import TLang.Registry.Initial

/-! The outline of a registry: the names of its classes, who extends whom, and the table of names.
Lookups by name, lines of inheritance and assignability depend on nothing else, so they stay as they are
while members are declared. -/
namespace TLang.Registry

def outline (r : Registry) : List (String × Option ClassId) × List (String × ClassId) :=
  (r.classes.map fun c => (c.name, c.parent), r.byName)

variable {r r' : Registry} {name : String} {c : ClassId}

theorem name_eq_getElem? (r : Registry) (c : ClassId) :
    (r.classInfo c).name = (r.classes.map ClassInfo.name)[c.index]?.getD "" := by
  rw [classInfo, List.getElem?_map]
  cases r.classes[c.index]? <;> rfl

theorem parent_eq_outline (r : Registry) (c : ClassId) :
    r.parent c = (r.outline.1[c.index]?).bind Prod.snd := by
  rw [parent, classInfo, outline, List.getElem?_map]
  cases r.classes[c.index]? <;> rfl

/-- A change of one class does not show in a view that does not depend on it. -/
theorem map_updateClass {α : Type} {g : ClassInfo → α} {f : ClassInfo → ClassInfo}
    (hg : ∀ info, g (f info) = g info) (r : Registry) (id : ClassId) :
    (r.updateClass id f).classes.map g = r.classes.map g := by
  apply List.ext_getElem?
  intro i
  simp only [updateClass, List.getElem?_map, List.getElem?_modify]
  cases r.classes[i]? with
  | none => rfl
  | some info => by_cases hi : id.index = i <;> simp [hi, hg]

theorem mem_names_iff : name ∈ r.classes.map ClassInfo.name ↔
    ∃ c : ClassId, c.index < r.classes.length ∧ (r.classInfo c).name = name := by
  rw [List.mem_map]
  constructor
  · rintro ⟨info, hInfo, rfl⟩
    obtain ⟨i, hi, rfl⟩ := List.mem_iff_getElem.mp hInfo
    exact ⟨⟨i⟩, hi, by simp [classInfo, hi]⟩
  · rintro ⟨c, hc, rfl⟩
    exact ⟨_, List.getElem_mem hc, by simp [classInfo, hc]⟩

section SameOutline

variable (h : r'.outline = r.outline)

include h

theorem length_classes_of_outline : r'.classes.length = r.classes.length := by
  simpa [outline] using congrArg (·.1.length) h

theorem names_of_outline : r'.classes.map ClassInfo.name = r.classes.map ClassInfo.name := by
  simpa [outline, Function.comp_def] using congrArg (·.1.map Prod.fst) h

theorem name_of_outline (c : ClassId) : (r'.classInfo c).name = (r.classInfo c).name := by
  rw [name_eq_getElem?, names_of_outline h, ← name_eq_getElem?]

theorem parent_of_outline (c : ClassId) : r'.parent c = r.parent c := by
  rw [parent_eq_outline, h, ← parent_eq_outline]

theorem lookupClass_of_outline (name : String) : r'.lookupClass name = r.lookupClass name := by
  rw [lookupClass, show r'.byName = r.byName from congrArg Prod.snd h, ← lookupClass]

theorem climb_of_outline (steps : Nat) (seen : List ClassId) (current : ClassId) :
    r'.climb steps seen current = r.climb steps seen current := by
  induction steps generalizing seen current with
  | zero => rfl
  | succ steps ih => simp only [climb, parent_of_outline h, ih]

theorem chain_of_outline (c : ClassId) : r'.chain c = r.chain c := by
  rw [chain, chain, length_classes_of_outline h, climb_of_outline h]

theorem isSubclass_of_outline (c a : ClassId) : r'.isSubclass c a = r.isSubclass c a := by
  rw [isSubclass, isSubclass, chain_of_outline h]

end SameOutline

/-- A type that a variable, a field or a parameter may have: an int, or a registered class. -/
def IsStored (r : Registry) : Ty → Prop
  | .int => True
  | .ofClass c => c.index < r.classes.length
  | _ => False

/-- The types of the values that expressions have. -/
def IsValue (r : Registry) (ty : Ty) : Prop := ty = .null ∨ r.IsStored ty

theorem IsValue.cases {ty : Ty} (h : r.IsValue ty) :
    ty = .null ∨ ty = .int ∨ ∃ c, ty = .ofClass c ∧ c.index < r.classes.length := by
  rcases h with h | h
  · exact .inl h
  · cases ty with
    | int => exact .inr (.inl rfl)
    | ofClass c => exact .inr (.inr ⟨c, rfl, h⟩)
    | null | untyped | error | address | ofMethod _ => exact h.elim

theorem isStored_of_outline (h : r'.outline = r.outline) (ty : Ty) :
    r'.IsStored ty ↔ r.IsStored ty := by
  cases ty <;> simp [IsStored, length_classes_of_outline h]

theorem IsStored.ne_ofMethod {ty : Ty} (h : r.IsStored ty) (m : MethodId) : ty ≠ .ofMethod m := by
  rintro rfl
  exact h

theorem typeName_of_outline (h : r'.outline = r.outline) {ty : Ty} (hTy : ∀ m, ty ≠ .ofMethod m) :
    r'.typeName ty = r.typeName ty := by
  cases ty with
  | ofClass c => exact name_of_outline h c
  | ofMethod m => exact absurd rfl (hTy m)
  | int | null | untyped | error | address => rfl

/-- A signature depends on what the parameter types are called. -/
theorem signature_congr {params params' : List Ty} (h : params'.map r'.typeName = params.map r.typeName)
    (name : String) (kind : MethodKind) : r'.signature name kind params' = r.signature name kind params := by
  have hFold := congrArg (List.foldl (fun text type => text ++ "$" ++ type) name) h
  rw [List.foldl_map, List.foldl_map] at hFold
  cases kind with
  | destructor => rfl
  | method | constructor => exact hFold

theorem signature_of_outline (h : r'.outline = r.outline) (name : String) (kind : MethodKind)
    {params : List Ty} (hParams : ∀ ty ∈ params, ∀ m, ty ≠ .ofMethod m) :
    r'.signature name kind params = r.signature name kind params :=
  signature_congr (List.map_congr_left fun ty hTy => typeName_of_outline h (hParams ty hTy)) name kind

/-- The table of names is the inverse of the list of classes: a class is found under its name, and
nothing else is found. -/
def FoundByName (r : Registry) : Prop :=
  ∀ name c, r.lookupClass name = some c ↔ c.index < r.classes.length ∧ (r.classInfo c).name = name

/-- The registry with one more class, which is the one found under its name. -/
def pushClass (r : Registry) (name : String) : Registry :=
  { r with classes := r.classes ++ [{ name }], byName := (name, ⟨r.classes.length⟩) :: r.byName }

/-- A class is registered if its name is new. Otherwise nothing changes. -/
theorem Change.on_registerClass (name : String) (r : Registry) : (registerClass name).on r =
    if (r.lookupClass name).isSome then (.error name, r)
    else (.ok ⟨r.classes.length⟩, r.pushClass name) := by
  by_cases hTaken : (r.lookupClass name).isSome <;> simp [registerClass, hTaken, pushClass, -bind_pure_comp]

theorem classInfo_pushClass (r : Registry) (name : String) (c : ClassId) : (r.pushClass name).classInfo c =
    if c.index = r.classes.length then { name } else r.classInfo c := by
  rcases Nat.lt_trichotomy c.index r.classes.length with hc | hc | hc
  · rw [if_neg (Nat.ne_of_lt hc), classInfo, pushClass, List.getElem?_append_left hc, classInfo]
  · simp [classInfo, pushClass, hc]
  · rw [if_neg (Nat.ne_of_gt hc), classInfo, classInfo, List.getElem?_eq_none hc.le,
      List.getElem?_eq_none (by simpa [pushClass] using hc)]

theorem lookupClass_pushClass (r : Registry) (name other : String) :
    (r.pushClass name).lookupClass other =
      if name = other then some ⟨r.classes.length⟩ else r.lookupClass other := by
  by_cases hName : name = other <;> simp [lookupClass, pushClass, hName]

namespace FoundByName

theorem of_names (h : r.FoundByName) (hNames : r'.classes.map ClassInfo.name = r.classes.map ClassInfo.name)
    (hTable : r'.byName = r.byName) : r'.FoundByName := by
  intro name c
  have hLength : r'.classes.length = r.classes.length := by simpa using congrArg List.length hNames
  rw [lookupClass, hTable, ← lookupClass, h name c, name_eq_getElem? r', hNames, ← name_eq_getElem?, hLength]

section

variable (h : r.FoundByName)
include h

theorem lookupClass_name (hc : c.index < r.classes.length) : r.lookupClass (r.classInfo c).name = some c :=
  (h _ c).mpr ⟨hc, rfl⟩

theorem lookupClass_eq_none_iff : r.lookupClass name = none ↔ name ∉ r.classes.map ClassInfo.name := by
  simp only [mem_names_iff, ← h name, Option.eq_none_iff_forall_ne_some, ne_eq, not_exists]

/-- Two registered classes of one name are the same class. -/
theorem eq_of_name {a b : ClassId} (ha : a.index < r.classes.length) (hb : b.index < r.classes.length)
    (hName : (r.classInfo a).name = (r.classInfo b).name) : a = b :=
  Option.some.inj ((h.lookupClass_name ha).symm.trans (hName ▸ h.lookupClass_name hb))

theorem nodup : (r.classes.map ClassInfo.name).Nodup := by
  rw [List.Nodup, List.pairwise_iff_getElem]
  intro i j hi hj hLt hEq
  rw [List.length_map] at hi hj
  have hSame := h.eq_of_name (a := ⟨i⟩) (b := ⟨j⟩) hi hj (by simpa [classInfo, hi, hj] using hEq)
  exact Nat.ne_of_lt hLt (ClassId.mk.inj hSame)

/-- A class of a new name is found under it, and the others are found as before. -/
theorem pushClass (hNew : r.lookupClass name = none) : (r.pushClass name).FoundByName := by
  intro other c
  have hLength : (r.pushClass name).classes.length = r.classes.length + 1 := by simp [Registry.pushClass]
  rw [lookupClass_pushClass, classInfo_pushClass, hLength]
  have hOld := h other c
  by_cases hLast : c.index = r.classes.length
  · rw [if_pos hLast]
    have hNot : r.lookupClass other ≠ some c := fun hFound => Nat.ne_of_lt (hOld.mp hFound).1 hLast
    by_cases hName : name = other
    · have hSame : (⟨r.classes.length⟩ : ClassId) = c := hLast ▸ rfl
      simp [hName, hSame, hLast]
    · simp [hName, hNot]
  · rw [if_neg hLast]
    by_cases hName : name = other
    · subst hName
      have hOther : ¬ (c.index < r.classes.length ∧ (r.classInfo c).name = name) := by simp [← hOld, hNew]
      have hNe : (⟨r.classes.length⟩ : ClassId) ≠ c := fun hEq => hLast (hEq ▸ rfl)
      simp only [if_true, Option.some.injEq, hNe, false_iff]
      exact fun hc => hOther ⟨by omega, hc.2⟩
    · rw [if_neg hName, hOld]
      exact and_congr_left fun _ => by omega

end

end FoundByName

theorem found_initial : initial.FoundByName := by
  rintro name ⟨i⟩
  by_cases hName : objectName = name <;> cases i <;>
    simp [lookupClass, initial, object, classInfo, hName]

/-- The classes of a program once every one of them has found its place: they are found by their names,
and parent links lead from every class to the root. -/
structure Lineal (r : Registry) : Prop where
  found : r.FoundByName
  rooted : 0 < r.classes.length
  root_parent : r.parent object = none
  parent_lt : ∀ c p, r.parent c = some p → p.index < r.classes.length
  exists_parent : ∀ c, c.index < r.classes.length → c ≠ object → ∃ p, r.parent c = some p
  acyclic : r.Acyclic

theorem Lineal.of_outline (hLineal : r.Lineal) (h : r'.outline = r.outline) : r'.Lineal where
  found := hLineal.found.of_names (names_of_outline h) (congrArg Prod.snd h)
  rooted := length_classes_of_outline h ▸ hLineal.rooted
  root_parent := by rw [parent_of_outline h, hLineal.root_parent]
  parent_lt := by
    intro c p hp
    rw [parent_of_outline h] at hp
    exact length_classes_of_outline h ▸ hLineal.parent_lt c p hp
  exists_parent := by
    intro c hc hne
    rw [length_classes_of_outline h] at hc
    rw [parent_of_outline h]
    exact hLineal.exists_parent c hc hne
  acyclic := by
    rw [acyclic_iff]
    intro c
    have hc := acyclic_iff.mp hLineal.acyclic c
    simpa only [inheritsFromItself, parent_of_outline h, isSubclass_of_outline h] using hc

/-- The line of a class ends with the root. -/
theorem Lineal.getLast?_chain (h : r.Lineal) {c : ClassId} (hc : c.index < r.classes.length) :
    (r.chain c).getLast? = some object := by
  have hLine := h.acyclic.line_chain c
  generalize r.chain c = line at hLine
  induction hLine with
  | @root c hParent =>
    by_contra hLast
    obtain ⟨p, hp⟩ := h.exists_parent c hc fun hEq => hLast (by rw [hEq]; rfl)
    cases hParent.symm.trans hp
  | @step c p rest hParent above ih =>
    have hRest := ih (h.parent_lt c p hParent)
    rw [List.getLast?_cons, hRest]
    rfl

theorem Lineal.lt_of_mem_chain (h : r.Lineal) {c a : ClassId} (hc : c.index < r.classes.length)
    (ha : a ∈ r.chain c) : a.index < r.classes.length := by
  have hReaches := mem_chain_iff.mp ha
  induction hReaches with
  | refl => exact hc
  | tail hReaches hParent => exact h.parent_lt _ _ hParent

end TLang.Registry
