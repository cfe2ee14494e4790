import TLang.Proofs.Members

/-! Collecting classes. Classes are registered one after the other and then linked to their parents. No
declaration is due twice. -/
namespace TLang

open Registry Analysis List

variable {ds : List ClassDecl} {names : String → Prop} {r : Registry} {id p c : ClassId}

namespace ClassInfo

/-- The class without its parent link. -/
def orphan (c : ClassInfo) : ClassInfo := { c with parent := none }

end ClassInfo

namespace Registry

theorem parent_setParent_self (hId : id.index < r.classes.length) : (r.setParent id p).parent id = some p := by
  rw [parent, setParent, classInfo_updateClass_self r _ hId]

theorem parent_setParent_of_ne (hc : c ≠ id) : (r.setParent id p).parent c = r.parent c := by
  rw [parent, setParent, classInfo_updateClass_of_ne r _ hc, parent]

/-- A link shows only in a view that depends on it. -/
theorem map_setParent {α : Type} {g : ClassInfo → α} (hg : ∀ info p, g { info with parent := some p } = g info)
    (r : Registry) (id p : ClassId) : (r.setParent id p).classes.map g = r.classes.map g :=
  map_updateClass (hg · p) r id

variable (r)

/-- A walk meets at most as many classes as it may take steps. -/
theorem length_climb_le (steps : Nat) (seen : List ClassId) (current : ClassId) :
    (r.climb steps seen current).length ≤ seen.length + steps := by
  induction steps generalizing seen current with
  | zero => simp [climb]
  | succ steps ih =>
    rw [climb]
    split
    · omega
    · split
      · omega
      · rename_i p _ _
        have hNext := ih (seen ++ [p]) p
        rw [length_append, length_singleton] at hNext
        omega

theorem length_chain_le (c : ClassId) : (r.chain c).length ≤ r.classes.length + 1 := by
  have hClimb := length_climb_le r r.classes.length [c] c
  rw [length_singleton] at hClimb
  rw [chain]
  omega

/-- No declaration is due twice. -/
theorem nodup_declarationOrder (ds : List ClassDecl) : (r.declarationOrder ds).Nodup := by
  rw [declarationOrder, nodup_flatMap]
  refine ⟨fun depth _ => nodup_range.filter _, nodup_range.imp ?_⟩
  -- A declaration has one depth, so it is due at one time.
  intro depth depth' hNe i hi hi'
  have hDepth := (mem_filter.mp hi).2
  have hDepth' := (mem_filter.mp hi').2
  simp only [beq_iff_eq] at hDepth hDepth'
  rw [hDepth] at hDepth'
  cases hDepth'
  exact hNe rfl

end Registry

namespace ClassDecl

variable {env : Env}

/-- The declarations after registration: each one has the number that follows that of the one
before it. -/
def numbered (start : Nat) (ds : List ClassDecl) : List ClassDecl :=
  ds.mapIdx fun i d => { d with resolved := some ⟨start + i⟩ }

theorem mem_numbered {start : Nat} {d : ClassDecl} (h : d ∈ numbered start ds) :
    ∃ i, ∃ hi : i < ds.length, d = { ds[i] with resolved := some ⟨start + i⟩ } := by
  obtain ⟨i, hi, hd⟩ := mem_mapIdx.mp h
  exact ⟨i, hi, hd.symm⟩

/-- The registry while parents are linked: but for the links, its classes are `bare`. -/
structure Linking (bare : List ClassInfo) (env : Env) : Prop where
  classes : env.types.classes.map ClassInfo.orphan = bare
  found : env.types.FoundByName
  root_parent : env.types.parent object = none
  parent_lt : ∀ c p, env.types.parent c = some p → p.index < env.types.classes.length

theorem Linking.setParent {bare : List ClassInfo} (h : Linking bare env) (hBelow : id ≠ object)
    (hId : id.index < env.types.classes.length) (hp : p.index < env.types.classes.length) :
    Linking bare { env with types := env.types.setParent id p } where
  classes := (map_setParent (by intros; rfl) env.types id p).trans h.classes
  found := h.found.of_names (map_setParent (by intros; rfl) env.types id p) rfl
  root_parent := by rw [parent_setParent_of_ne hBelow.symm, h.root_parent]
  parent_lt := by
    intro c q hq
    have hLength : (env.types.setParent id p).classes.length = env.types.classes.length :=
      length_classes_updateClass _ _ _
    rw [hLength]
    by_cases hc : c = id
    · rw [hc, parent_setParent_self hId] at hq
      cases hq
      exact hp
    · rw [parent_setParent_of_ne hc] at hq
      exact h.parent_lt c q hq

end ClassDecl

/-- Every registered class but the root is that of some declaration. -/
def Registry.CoveredBy (r : Registry) (ds : List ClassDecl) : Prop :=
  ∀ c, c.index < r.classes.length → c ≠ object → ∃ d ∈ ds, d.resolved = some c

/-- The classes of a program before parents are linked. -/
def bareClasses (ds : List ClassDecl) : List ClassInfo :=
  initial.classes ++ ds.map fun d => { name := d.name }

/-- The registry of a program before parents are linked. -/
def bareRegistry (ds : List ClassDecl) : Registry where
  classes := bareClasses ds
  methods := initial.methods
  byName := ((ds.map ClassDecl.name).mapIdx fun i name => (name, ⟨i + 1⟩)).reverse ++ initial.byName

theorem bareRegistry_concat (ds : List ClassDecl) (d : ClassDecl) :
    bareRegistry (ds ++ [d]) = (bareRegistry ds).pushClass d.name := by
  simp [bareRegistry, bareClasses, pushClass, mapIdx_append, initial]

theorem names_bareClasses (ds : List ClassDecl) :
    (bareClasses ds).map ClassInfo.name = objectName :: ds.map ClassDecl.name := by
  simp [bareClasses, initial, Function.comp_def]

theorem found_bareRegistry (hNames : (objectName :: ds.map ClassDecl.name).Nodup) :
    (bareRegistry ds).FoundByName := by
  induction ds using List.reverseRecOn with
  | nil => exact found_initial
  | append_singleton ds d ih =>
    rw [map_append, ← cons_append, map_singleton, nodup_append_comm, singleton_append, nodup_cons] at hNames
    have hFound := ih hNames.2
    rw [bareRegistry_concat]
    exact hFound.pushClass (hFound.lookupClass_eq_none_iff.mpr (names_bareClasses ds ▸ hNames.1))

theorem ClassDecl.classInfo_of_linking {env : Env} (h : ClassDecl.Linking (bareClasses ds) env) (c : ClassId) :
    (env.types.classInfo c).orphan = (bareClasses ds)[c.index]?.getD { name := "" } := by
  rw [← h.classes, List.getElem?_map, classInfo]
  cases env.types.classes[c.index]? <;> rfl

/-- The routines of the root class are in order. -/
theorem Registry.coherentAt_root (hEquals : names "equals") (hLength : 0 < r.classes.length)
    (hRoot : r.classInfo object = initial.classInfo object) (hMethods : initial.methods <+: r.methods) :
    r.CoherentAt names object := by
  have hOwn : (r.classInfo object).methods = [⟨0⟩, ⟨1⟩, ⟨2⟩] := by rw [hRoot]; rfl
  have hBound : ∀ m ∈ (r.classInfo object).methods, m.index < initial.methods.length := by
    rw [hOwn]
    decide
  have hInfo : ∀ m ∈ (r.classInfo object).methods, r.methodInfo m = initial.methodInfo m :=
    fun m hm => methodInfo_of_prefix hMethods (hBound m hm)
  -- A statement about the methods of the root is one about three records.
  have hEach : ∀ {p : MethodInfo → Prop}, p (initial.methodInfo ⟨0⟩) → p (initial.methodInfo ⟨1⟩) →
      p (initial.methodInfo ⟨2⟩) → ∀ m ∈ (r.classInfo object).methods, p (r.methodInfo m) := by
    intro p h0 h1 h2 m hm
    rw [hInfo m hm]
    rw [hOwn] at hm
    simp only [mem_cons, not_mem_nil, or_false] at hm
    rcases hm with rfl | rfl | rfl
    · exact h0
    · exact h1
    · exact h2
  have hName : (r.classInfo object).name = "Object" := by rw [hRoot]; rfl
  exact {
    table := by
      rw [map_congr_left fun m hm => by rw [hInfo m hm], hRoot]
      rfl
    distinct := by
      rw [map_congr_left fun m hm => by rw [hInfo m hm], hRoot]
      decide
    bounded := fun m hm => Nat.lt_of_lt_of_le (hBound m hm) hMethods.length_le
    routine := by
      refine hEach ⟨rfl, rfl, by rw [hName]; rfl, by simp [initial, methodInfo, Bindings.types],
        by rintro ⟨⟩, fun _ => hName.symm⟩ ⟨rfl, rfl, by rw [hName]; rfl,
        by simp [initial, methodInfo, Bindings.types], by rintro ⟨⟩, by rintro ⟨⟩⟩
        ⟨rfl, ?_, by rw [hName]; rfl, ?_, fun _ => ⟨.int, rfl, trivial⟩, by rintro ⟨⟩⟩
      · simp [initial, methodInfo, signature, Bindings.types, typeName, hName]
      · simp [initial, methodInfo, Bindings.types, IsStored, object, hLength]
    named := hEach (p := fun m => m.kind = .method → names m.name) (by rintro ⟨⟩) (by rintro ⟨⟩)
      fun _ => hEquals
    fields := by
      rw [hRoot]
      rintro f hf
      cases hf }

/-- Nothing is declared in a class that was only registered. -/
theorem Registry.coherentAt_bare {name : String} (hBare : (r.classInfo c).orphan = { name }) :
    r.CoherentAt names c := by
  have hMethods : (r.classInfo c).methods = [] := congrArg ClassInfo.methods hBare
  have hMembers : (r.classInfo c).members = {} := congrArg ClassInfo.members hBare
  have hFields : (r.classInfo c).fields = [] := congrArg ClassInfo.fields hBare
  constructor <;> simp [hMethods, hMembers, hFields]

namespace ClassDecl

variable {env : Env}

theorem exists_index (hc : c ≠ object) : ∃ k, c.index = k + 1 := by
  refine Nat.exists_eq_succ_of_ne_zero fun hZero => hc ?_
  cases c
  exact congrArg ClassId.mk hZero

section

variable (h : Linking (bareClasses ds) env)
include h

theorem Linking.root : env.types.classInfo object = initial.classInfo object := by
  have hOrphan := classInfo_of_linking h object
  have hParent : (env.types.classInfo object).parent = none := h.root_parent
  generalize env.types.classInfo object = c at hOrphan hParent ⊢
  cases c
  simp only at hParent
  subst hParent
  exact hOrphan

theorem Linking.bare (hc : c ≠ object) : ∃ name, (env.types.classInfo c).orphan = { name } := by
  obtain ⟨k, hk⟩ := exists_index hc
  have hOrphan := classInfo_of_linking h c
  rw [hk, bareClasses, initial, singleton_append, List.getElem?_cons_succ, List.getElem?_map] at hOrphan
  cases hFound : ds[k]? with
  | none => exact ⟨"", by rw [hOrphan, hFound]; rfl⟩
  | some d => exact ⟨d.name, by rw [hOrphan, hFound]; rfl⟩

theorem Linking.length : env.types.classes.length = ds.length + 1 := by
  have hLength := congrArg List.length h.classes
  rw [length_map] at hLength
  rw [hLength]
  simp [bareClasses, initial]

theorem Linking.name {i : Nat} (hi : i < ds.length) :
    (env.types.classInfo ⟨i + 1⟩).name = ds[i].name := by
  have hOrphan := congrArg ClassInfo.name (classInfo_of_linking h ⟨i + 1⟩)
  simpa [ClassInfo.orphan, bareClasses, initial, hi] using hOrphan

theorem Linking.fieldsOpen (c : ClassId) : env.types.FieldsOpen c := by
  by_cases hc : c = object
  · rw [hc, FieldsOpen, h.root]
    rfl
  · obtain ⟨name, hName⟩ := h.bare hc
    have hMembers : (env.types.classInfo c).members = {} := congrArg ClassInfo.members hName
    have hFields : (env.types.classInfo c).fields = [] := congrArg ClassInfo.fields hName
    rw [FieldsOpen, hMembers, hFields]

end

/-- At first there are no links. -/
theorem Linking.classNames {ds : List ClassDecl} {env : Env} (h : Linking (bareClasses ds) env) :
    env.types.classes.map ClassInfo.name = objectName :: ds.map ClassDecl.name := by
  have hNames := congrArg (List.map ClassInfo.name) h.classes
  rw [map_map] at hNames
  simpa [bareClasses, initial, Function.comp_def, ClassInfo.orphan] using hNames

theorem linking_bareClasses (hNames : (objectName :: ds.map ClassDecl.name).Nodup) :
    Linking (bareClasses ds) { types := bareRegistry ds } where
  classes := by
    rw [bareRegistry, bareClasses, map_append, map_map]
    rfl
  found := found_bareRegistry hNames
  root_parent := rfl
  parent_lt := by
    intro c p hp
    have hNone : ∀ info ∈ bareClasses ds, info.parent = none := by
      simp [bareClasses, initial]
    have hLt := lt_of_parent hp
    have hInfo := hNone _ (getElem_mem hLt)
    simp only [Registry.parent, classInfo] at hp
    rw [List.getElem?_eq_getElem hLt, Option.getD_some, hInfo] at hp
    cases hp

end ClassDecl

end TLang
