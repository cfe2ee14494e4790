import TLang.Proofs.Registry.Outline
import TLang.Registry.Layout

/-! Inherited fields. The table of a completed class answers for every field as the line of
inheritance does: by the nearest class that declares it. -/
namespace TLang

variable {b more : Bindings} {c : ClassId}

namespace Bindings

theorem type?_singleton (entry : String × Ty) (name : String) :
    type? [entry] name = if entry.1 = name then some entry.2 else none := by
  by_cases hName : entry.1 = name <;> simp [type?, hName]

/-- A new entry is found unless its name was there already, and then the older one is. -/
theorem type?_addNew (b : Bindings) (entry : String × Ty) (name : String) :
    (b.addNew entry).type? name = (b.type? name).or (type? [entry] name) := by
  cases hAdd : b.add? entry.1 entry.2 with
  | some extended =>
    obtain ⟨-, rfl⟩ := add?_eq_some_iff.mp hAdd
    simp [addNew, hAdd, type?_append]
  | none =>
    have hKnown := add?_eq_none_iff.mp hAdd
    rw [addNew, hAdd, Option.getD_none, type?_singleton]
    by_cases hName : entry.1 = name
    · have hSome : b.type? name ≠ none := fun h => type?_eq_none_iff.mp h (hName ▸ hKnown)
      obtain ⟨ty, hTy⟩ := Option.ne_none_iff_exists'.mp hSome
      simp [hTy]
    · simp [hName]

/-- Names that are declared keep their types. -/
theorem type?_extend (b more : Bindings) (name : String) :
    (b.extend more).type? name = (b.type? name).or (more.type? name) := by
  induction more generalizing b with
  | nil => simp [extend, type?]
  | cons entry more ih =>
    have hCons : type? (entry :: more) name = (type? [entry] name).or (type? more name) :=
      type?_append [entry] more name
    rw [extend, List.foldl_cons, ← extend, ih, type?_addNew, hCons, Option.or_assoc]

theorem extend_cons (b : Bindings) (entry : String × Ty) (more : Bindings) :
    b.extend (entry :: more) = (b.addNew entry).extend more := rfl

/-- Fields that are inherited never repeat a name, since one that is there already is skipped. -/
theorem nodup_names_extend (h : b.names.Nodup) : (b.extend more).names.Nodup := by
  induction more generalizing b with
  | nil => exact h
  | cons entry more ih =>
    refine ih ?_
    cases hAdd : b.add? entry.1 entry.2 with
    | none => rwa [addNew, hAdd]
    | some extended =>
      obtain ⟨hNew, rfl⟩ := add?_eq_some_iff.mp hAdd
      rw [addNew, hAdd, Option.getD_some, names, ← List.concat_eq_append, List.map_concat]
      exact h.concat hNew

theorem mem_of_mem_extend {entry : String × Ty} (h : entry ∈ b.extend more) : entry ∈ b ∨ entry ∈ more := by
  induction more generalizing b with
  | nil => exact .inl h
  | cons first more ih =>
    rcases ih h with hNew | hMore
    · cases hAdd : b.add? first.1 first.2 with
      | none =>
        rw [addNew, hAdd] at hNew
        exact .inl hNew
      | some extended =>
        rw [addNew, hAdd, (add?_eq_some_iff.mp hAdd).2] at hNew
        refine (List.mem_append.mp hNew).imp_right fun hFirst => ?_
        exact List.mem_cons.mpr (.inl (List.mem_singleton.mp hFirst))
    · exact .inr (List.mem_cons_of_mem _ hMore)

theorem type?_flatMap {α : Type} (f : α → Bindings) (l : List α) (name : String) :
    type? (l.flatMap f) name = l.findSome? fun a => (f a).type? name := by
  induction l with
  | nil => rfl
  | cons a l ih =>
    rw [List.flatMap_cons, type?_append, ih, List.findSome?_cons]
    cases (f a).type? name <;> rfl

end Bindings

namespace Registry

variable {r r' : Registry}

/-- The type that the nearest class declaring the field gives it. -/
def fieldType (r : Registry) (c : ClassId) (name : String) : Option Ty :=
  (r.chain c).findSome? fun a => (r.classInfo a).fields.type? name

theorem fieldType_congr (hOutline : r'.outline = r.outline)
    (hFields : ∀ c, (r'.classInfo c).fields = (r.classInfo c).fields) (c : ClassId) (name : String) :
    r'.fieldType c name = r.fieldType c name := by
  simp only [fieldType, chain_of_outline hOutline, hFields]

/-- The root declares no field, so it does not matter that it is left out. -/
theorem flatMap_takeWhile_of_line (hRoot : r.parent object = none) (hFields : (r.classInfo object).fields = [])
    {line : List ClassId} (hLine : Line r c line) :
    (line.takeWhile (· ≠ object)).flatMap (fun a => (r.classInfo a).fields) =
      line.flatMap fun a => (r.classInfo a).fields := by
  induction hLine with
  | @root c hParent =>
    by_cases hc : c = object
    · simp [hc, hFields]
    · simp [hc]
  | @step c p rest hParent above ih =>
    have hc : c ≠ object := by
      rintro rfl
      simp [hRoot] at hParent
    rw [List.takeWhile_cons_of_pos (by simpa using hc), List.flatMap_cons, List.flatMap_cons, ih]

/-- An inherited field has the type that the nearest ancestor gives it. Own fields are not among the inherited
ones. -/
theorem type?_inheritedFields (hAcyclic : r.Acyclic) (hRoot : r.parent object = none)
    (hFields : (r.classInfo object).fields = []) (c : ClassId) (name : String) :
    (r.inheritedFields c).type? name =
      (r.ancestors c).findSome? fun a => (r.classInfo a).fields.type? name := by
  rw [inheritedFields, ← Bindings.type?_flatMap]
  congr 1
  cases hParent : r.parent c with
  | none =>
    have hNone : r.ancestors c = [] := by rw [ancestors, hAcyclic.chain_of_root hParent]; rfl
    rw [hNone]
    rfl
  | some p =>
    rw [hAcyclic.ancestors_of_parent hParent]
    exact flatMap_takeWhile_of_line hRoot hFields (hAcyclic.line_chain p)

/-- A table of own or of all fields answers for all fields once the inherited ones are copied. -/
theorem lookupField_inheritFields (hAcyclic : r.Acyclic) (hRoot : r.parent object = none)
    (hFields : (r.classInfo object).fields = []) (hc : c.index < r.classes.length) {name : String}
    (hOwn : r.lookupField c name = (r.classInfo c).fields.type? name ∨
      r.lookupField c name = r.fieldType c name) :
    (r.inheritFields c).lookupField c name = r.fieldType c name := by
  have hType : r.fieldType c name = ((r.classInfo c).fields.type? name).or
      ((r.inheritedFields c).type? name) := by
    rw [type?_inheritedFields hAcyclic hRoot hFields, fieldType, chain_eq_cons, List.findSome?_cons]
    cases (r.classInfo c).fields.type? name <;> rfl
  have hTable : (r.inheritFields c).lookupField c name =
      (r.lookupField c name).or ((r.inheritedFields c).type? name) := by
    rw [lookupField, inheritFields, classInfo_updateClass_self r _ hc]
    exact Bindings.type?_extend _ _ _
  rw [hTable]
  rcases hOwn with hOwn | hOwn
  · rw [hOwn, hType]
  · rw [hOwn, hType, Option.or_assoc, Option.or_self]

end Registry
end TLang
