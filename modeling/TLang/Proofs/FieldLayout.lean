import TLang.Proofs.Consistency

/-! Where the fields of objects are, whatever is reported. The type of a field comes from a table that
inheritance fills and its cell from a search along the line of inheritance. Both are those of the
nearest declaration, and the cell stays where it is in the objects of all subclasses. -/
namespace TLang

open List

theorem Bindings.extend_append (b more rest : Bindings) :
    b.extend (more ++ rest) = (b.extend more).extend rest :=
  foldl_append

/-- To declare a name again changes nothing. -/
theorem Bindings.extend_redeclared {b before after : Bindings} {entry : String × Ty}
    (h : entry.1 ∈ before.names) : b.extend (before ++ entry :: after) = b.extend (before ++ after) := by
  have hKnown : entry.1 ∈ (b.extend before).names := by
    have hSome : before.type? entry.1 ≠ none := fun hNone => type?_eq_none_iff.mp hNone h
    by_contra hNot
    rw [← type?_eq_none_iff, type?_extend, Option.or_eq_none_iff] at hNot
    exact hSome hNot.2
  have hSkip : (b.extend before).addNew entry = b.extend before := by
    rw [addNew, add?_eq_none_iff.mpr hKnown, Option.getD_none]
  rw [extend_append, extend_append]
  exact congrArg (fun b : Bindings => b.extend after) hSkip

namespace Registry

variable {r : Registry} {c d owner : ClassId} {name : String} {ty : Ty} {rank : Nat}

/-- The class itself declares the field. -/
def DeclaresField (r : Registry) (name : String) (c : ClassId) : Prop :=
  name ∈ (r.classInfo c).fields.names

/-- The field that a name stands for in the objects of a class: its declaration, its type and the rank of
its cell. -/
structure FieldCell (r : Registry) (c : ClassId) (name : String) (owner : ClassId) (ty : Ty)
    (rank : Nat) : Prop where
  nearest : r.NearestOn c (r.DeclaresField name) owner
  declared : (r.classInfo owner).fields.type? name = some ty
  lookup : r.lookupField c name = some ty
  cell : (r.fieldLayout c)[rank]? = some (owner, name)
  only : ∀ k : Nat, (r.fieldLayout c)[k]? = some (owner, name) → k = rank
  offset : r.fieldOffset c name = some (4 * (rank + 1))
  subclass : ∀ d, r.isSubclass d c = true →
    (r.fieldLayout d)[rank]? = some (owner, name) ∧ 4 * (rank + 1) < 4 * r.instanceCells d

/-- What the objects of a class look like. -/
structure FieldsLaidOut (r : Registry) (c : ClassId) : Prop where
  present : ∀ name, (r.lookupField c name).isSome = (r.fieldOffset c name).isSome
  cells : ∀ name ty, r.lookupField c name = some ty → ∃ owner rank, r.FieldCell c name owner ty rank
  subclass : ∀ d, r.isSubclass d c = true → r.fieldLayout c <+: r.fieldLayout d

/-- A subclass appends its fields to those it inherits. -/
theorem Acyclic.fieldLayout_isPrefix (h : r.Acyclic) (hSub : r.isSubclass d c = true) :
    r.fieldLayout c <+: r.fieldLayout d := by
  obtain ⟨below, hChain⟩ := h.chain_eq_append (isSubclass_iff.mp hSub)
  rw [fieldLayout, fieldLayout, hChain, reverse_append, flatMap_append]
  exact prefix_append _ _

/-- No field is stored twice. -/
theorem Consistent.nodup_fieldLayout (h : r.Consistent) (c : ClassId) : (r.fieldLayout c).Nodup := by
  rw [fieldLayout, nodup_flatMap]
  constructor
  · intro a _
    exact (h.tidy a).fields.map fun _ _ => And.right ∘ Prod.mk.inj
  · rw [pairwise_reverse]
    refine (r.nodup_chain c).imp fun {a b} hNe => ?_
    rintro ⟨a', name⟩ hb ha
    obtain ⟨_, -, hb⟩ := mem_map.mp hb
    obtain ⟨_, -, ha⟩ := mem_map.mp ha
    exact hNe ((Prod.mk.inj ha).1.trans (Prod.mk.inj hb).1.symm)

theorem mem_fieldLayout_iff :
    (owner, name) ∈ r.fieldLayout c ↔ owner ∈ r.chain c ∧ r.DeclaresField name owner := by
  simp [fieldLayout, DeclaresField]

theorem nearestOn_of_fieldType (h : r.fieldType c name = some ty) : ∃ owner,
    r.NearestOn c (r.DeclaresField name) owner ∧ (r.classInfo owner).fields.type? name = some ty := by
  obtain ⟨below, owner, above, hChain, hFound, hBelow⟩ := List.findSome?_eq_some_iff.mp h
  refine ⟨owner, ⟨?_, below, above, hChain, ?_⟩, hFound⟩
  · by_contra hNot
    rw [Bindings.type?_eq_none_iff.mpr hNot] at hFound
    cases hFound
  · exact fun a ha => Bindings.type?_eq_none_iff.mp (hBelow a ha)

theorem NearestOn.fieldOwner (h : r.NearestOn c (r.DeclaresField name) owner) :
    r.fieldOwner c name = some owner := by
  obtain ⟨below, above, hChain, hBelow⟩ := h.nearest
  refine List.find?_eq_some_iff_append.mpr ⟨Bindings.declares_iff.mpr h.has, below, above, hChain, ?_⟩
  intro a ha
  rw [Bool.not_eq_true', ← Bool.not_eq_true, Bindings.declares_iff]
  exact hBelow a ha

theorem NearestOn.mem_chain {p : ClassId → Prop} (h : r.NearestOn c p owner) : owner ∈ r.chain c := by
  obtain ⟨below, above, hChain, -⟩ := h.nearest
  rw [hChain]
  exact mem_append_right _ mem_cons_self

theorem fieldType_eq_none_iff :
    r.fieldType c name = none ↔ ∀ a ∈ r.chain c, ¬ r.DeclaresField name a := by
  simp only [fieldType, List.findSome?_eq_none_iff, Bindings.type?_eq_none_iff, DeclaresField]

/-- A declaration that is the nearest one fixes the type and the cell. -/
theorem Consistent.fieldCell (h : r.Consistent) (hc : c.index < r.classes.length)
    (hType : r.fieldType c name = some ty) : ∃ owner rank, r.FieldCell c name owner ty rank := by
  obtain ⟨owner, hNearest, hDeclared⟩ := nearestOn_of_fieldType hType
  have hMem : (owner, name) ∈ r.fieldLayout c :=
    mem_fieldLayout_iff.mpr ⟨hNearest.mem_chain, hNearest.has⟩
  obtain ⟨rank, hRank⟩ : ∃ rank, (r.fieldLayout c).findIdx? (· == (owner, name)) = some rank := by
    rw [← Option.isSome_iff_exists, List.findIdx?_isSome, any_eq_true]
    exact ⟨_, hMem, beq_self_eq_true _⟩
  obtain ⟨hLt, hEntry, -⟩ := List.findIdx?_eq_some_iff_getElem.mp hRank
  have hCell : (r.fieldLayout c)[rank]? = some (owner, name) := by
    rw [List.getElem?_eq_getElem hLt, beq_iff_eq.mp hEntry]
  refine ⟨owner, rank, hNearest, hDeclared, (h.lookups c hc name).trans hType, hCell, ?_, ?_, ?_⟩
  · intro k hk
    obtain ⟨hk', -⟩ := List.getElem?_eq_some_iff.mp hk
    exact (List.getElem?_inj hk' (h.nodup_fieldLayout c)).mp (hk.trans hCell.symm)
  · simp [fieldOffset, hNearest.fieldOwner, hRank]
  · intro d hSub
    obtain ⟨rest, hRest⟩ := h.lineal.acyclic.fieldLayout_isPrefix hSub
    rw [instanceCells, ← hRest, List.getElem?_append_left hLt, length_append]
    exact ⟨hCell, by omega⟩

/-- In a consistent registry the objects of all classes are laid out along the line. -/
theorem Consistent.fieldsLaidOut (h : r.Consistent) (hc : c.index < r.classes.length) :
    r.FieldsLaidOut c := by
  have hCells : ∀ name ty, r.lookupField c name = some ty →
      ∃ owner rank, r.FieldCell c name owner ty rank := by
    intro name ty hLookup
    rw [h.lookups c hc name] at hLookup
    exact h.fieldCell hc hLookup
  refine ⟨?_, hCells, fun d => h.lineal.acyclic.fieldLayout_isPrefix⟩
  intro name
  cases hLookup : r.lookupField c name with
  | some ty =>
    obtain ⟨owner, rank, hCell⟩ := hCells name ty hLookup
    rw [hCell.offset]
    rfl
  | none =>
    rw [h.lookups c hc name, fieldType_eq_none_iff] at hLookup
    have hOwner : r.fieldOwner c name = none := by
      refine List.find?_eq_none.mpr fun a ha => ?_
      rw [Bindings.declares_iff]
      exact hLookup a ha
    simp [fieldOffset, hOwner]

end Registry

namespace Program

open Registry ClassDecl

/-- After the analysis of a program as it is read, whatever was reported, a field has the type and the
cell of its nearest declaration, in the objects of its class and of all subclasses. The fields of a class
itself are those it asks for, and to ask for one again changes nothing. -/
theorem analysis_fieldsLaidOut (p : Program) (hFresh : p.isFresh = true) :
    (∀ c : ClassId, c.index < p.env.types.classes.length → p.env.types.FieldsLaidOut c) ∧
    ∀ i d, Registers p.classes i d → ∃ c : ClassId, p.env.types.lookupClass d.name = some c ∧
      (p.env.types.classInfo c).fields = Bindings.extend [] (d.fieldEntries p.env) ∧
      ∀ before entry after, d.fieldEntries p.env = before ++ entry :: after →
        entry.1 ∈ Bindings.names before →
          (p.env.types.classInfo c).fields = Bindings.extend [] (before ++ after) := by
  obtain ⟨hConsistent, hNames, hFields⟩ := consistent_analyze hFresh
  refine ⟨fun c hc => hConsistent.fieldsLaidOut hc, fun i d hd => ?_⟩
  refine ⟨place p.classes i, hd.lookupClass hNames hConsistent.lineal.found, hFields i d hd, ?_⟩
  intro before entry after hEntries hTaken
  rw [env, hFields i d hd, ← env, hEntries]
  exact Bindings.extend_redeclared hTaken

/-- Fields that are hidden by fields of subclasses, fields that are declared twice, a type that is not
known, and a class that extends itself. -/
def overlaid : Program where
  classes := [
    { line := 1, name := "Leaf", parent := some "Mid", members := [
      .field ⟨2, .named "Loop", ["y", "z"], none⟩] },
    { line := 3, name := "Mid", parent := some "Base", members := [
      .field ⟨4, .named "No", ["w", "x"], none⟩] },
    { line := 5, name := "Base", members := [
      .field ⟨6, .int, ["x", "y", "x"], none⟩, .field ⟨7, .named "Leaf", ["y"], none⟩] },
    { line := 8, name := "Loop", parent := some "Loop", members := [.field ⟨9, .int, ["x"], none⟩] }]
  main := ⟨10, []⟩

theorem analysis_fieldsLaidOut_overlaid : overlaid.isFresh = true ∧
    overlaid.diagnostics.any Diagnostic.isTerminal = true ∧
    ∃ c : ClassId, c.index < overlaid.env.types.classes.length ∧ overlaid.env.types.FieldsLaidOut c ∧
      overlaid.env.types.lookupClass "Leaf" = some c ∧
      overlaid.env.types.lookupField c "y" = some (.ofClass ⟨4⟩) ∧
      (["x", "y", "z", "w", "v"].map (overlaid.env.types.fieldOffset c)) =
        [some 16, some 20, some 24, some 12, none] :=
  ⟨by decide, by decide +kernel, ⟨1⟩, by decide +kernel,
    (analysis_fieldsLaidOut overlaid (by decide)).1 ⟨1⟩ (by decide +kernel), by decide +kernel,
    by decide +kernel, by decide +kernel⟩

end Program
end TLang
