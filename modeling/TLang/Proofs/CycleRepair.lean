import TLang.Proofs.Gathering

/-! Repair of inheritance. Who extends whom is first said by name, from the declarations alone. Each
cycle of these links is reported once, at the declaration of it that comes first, and the class of this
declaration then extends the root. All other links stay as they were asked for. -/
namespace TLang

open Registry Analysis List

namespace ClassDecl

/-- What a declaration extends: the class that it names, or else the root. -/
def parentName (ds : List ClassDecl) (d : ClassDecl) : String :=
  let name := d.parent.getD objectName
  if name ∈ ds.map ClassDecl.name then name else objectName

/-- What the class of a name extends according to its declaration. -/
def declaredParent (ds : List ClassDecl) (name : String) : Option String :=
  if name = objectName then none else (ds.find? (·.name == name)).map (parentName ds)

/-- The second name is that of a proper ancestor of the first, as declared. -/
def Above (ds : List ClassDecl) : String → String → Prop :=
  Relation.TransGen fun sub super => declaredParent ds sub = some super

/-- The declaration at an index registers a class that lies on a cycle, and no other declaration that
does so for the same cycle comes before it. -/
structure HeadsCycle (ds : List ClassDecl) (i : Nat) (d : ClassDecl) : Prop where
  registers : Registers ds i d
  circular : Above ds d.name d.name
  first : ∀ j d', Registers ds j d' → Above ds d.name d'.name → Above ds d'.name d.name → i ≤ j

variable {ds : List ClassDecl} {d : ClassDecl} {i : Nat} {env : Env} {c p : ClassId}

section Linked

variable (h : Registered (firsts ds) env)

include h

theorem parent_place (hd : Registers ds i d) :
    env.types.parent (place ds i) = some (env.types.parentOf d) := by
  obtain ⟨c, hFound, -, hInfo⟩ := h.declared d hd.mem_firsts
  rw [hd.lookupClass h.names h.found, Option.some.injEq] at hFound
  rw [Registry.parent, hFound, hInfo]

theorem parentOf_lt (d : ClassDecl) : (env.types.parentOf d).index < env.types.classes.length := by
  rw [parentOf]
  cases hFound : env.types.lookupClass (d.parent.getD objectName) with
  | some p => exact ((h.found _ _).mp hFound).1
  | none =>
    rw [h.length]
    exact Nat.succ_pos _

/-- A class is linked to the class that has the name it gives. A name that no class has counts as the name of
the root. -/
theorem name_parentOf (d : ClassDecl) :
    (env.types.classInfo (env.types.parentOf d)).name = parentName ds d := by
  have hRoot : (env.types.classInfo object).name = objectName := by rw [h.root]; rfl
  have hKnown : ∀ name, name ∈ env.types.classes.map ClassInfo.name ↔
      name ∈ objectName :: ds.map ClassDecl.name := by
    intro name
    rw [h.names, mem_names_firsts]
  rw [parentOf, parentName]
  cases hFound : env.types.lookupClass (d.parent.getD objectName) with
  | some p =>
    obtain ⟨hp, hName⟩ := (h.found _ _).mp hFound
    rw [Option.getD_some, hName]
    split
    · rfl
    · rename_i hOther
      have hMem := mem_names_iff.mpr ⟨p, hp, hName⟩
      rw [hKnown, mem_cons] at hMem
      exact hMem.resolve_right hOther
  | none =>
    have hUnknown := h.found.lookupClass_eq_none_iff.mp hFound
    rw [hKnown, mem_cons, not_or] at hUnknown
    rw [Option.getD_none, hRoot, if_neg hUnknown.2]

/-- The links of the registry are those that the declarations ask for. -/
theorem declaredParent_name (hc : c.index < env.types.classes.length) :
    declaredParent ds (env.types.classInfo c).name =
      (env.types.parent c).map fun p => (env.types.classInfo p).name := by
  by_cases hBelow : c = object
  · have hRoot : (env.types.classInfo object).name = objectName := by rw [h.root]; rfl
    have hParent : env.types.parent object = none := by rw [Registry.parent, h.root]; rfl
    rw [hBelow, hRoot, hParent, declaredParent, if_pos rfl]
    rfl
  · obtain ⟨i, d, hd, rfl⟩ := exists_registers_of_class h.names hc hBelow
    have hName := (hd.name_place h.names).2
    have hOther : d.name ≠ objectName := fun hEq => hd.new (hEq ▸ mem_cons_self)
    rw [hName, declaredParent, if_neg hOther, hd.find?_eq, parent_place h hd, Option.map_some,
      Option.map_some, name_parentOf h]

theorem parent_lt_of_registered (hParent : env.types.parent c = some p) :
    p.index < env.types.classes.length := by
  have hc := lt_of_parent hParent
  have hBelow : c ≠ object := by
    rintro rfl
    rw [Registry.parent, h.root] at hParent
    cases hParent
  obtain ⟨i, d, hd, rfl⟩ := exists_registers_of_class h.names hc hBelow
  rw [parent_place h hd] at hParent
  obtain rfl := Option.some.inj hParent
  exact parentOf_lt h d

/-- The lines of inheritance are the declared ones. -/
theorem above_iff {b : ClassId} (hc : c.index < env.types.classes.length)
    (hb : b.index < env.types.classes.length) :
    Above ds (env.types.classInfo c).name (env.types.classInfo b).name ↔
      Relation.TransGen (fun c p => env.types.parent c = some p) c b := by
  have hEdge : ∀ {c}, c.index < env.types.classes.length → ∀ {name},
      declaredParent ds (env.types.classInfo c).name = some name →
        ∃ p, env.types.parent c = some p ∧ (env.types.classInfo p).name = name := by
    intro c hc name hName
    rw [declaredParent_name h hc] at hName
    exact Option.map_eq_some_iff.mp hName
  constructor
  · intro hAbove
    generalize hName : (env.types.classInfo c).name = name at hAbove
    induction hAbove using Relation.TransGen.head_induction_on generalizing c with
    | single hLast =>
      obtain ⟨p, hp, hEq⟩ := hEdge hc (hName ▸ hLast)
      exact .single (h.found.eq_of_name (parent_lt_of_registered h hp) hb hEq ▸ hp)
    | head hStep _ ih =>
      obtain ⟨p, hp, hEq⟩ := hEdge hc (hName ▸ hStep)
      exact .head hp (ih (parent_lt_of_registered h hp) hEq)
  · intro hAbove
    refine Relation.TransGen.lift (fun c => (env.types.classInfo c).name) ?_ _ _ hAbove
    intro c p hParent
    exact (declaredParent_name h (lt_of_parent hParent)).trans (by rw [hParent]; rfl)

/-- Being the first class of a cycle can be read off the text, by following the names of parents. -/
theorem headsCycle_iff (hd : Registers ds i d) :
    HeadsCycle ds i d ↔ env.types.HeadsCycle (place ds i) := by
  obtain ⟨hLt, hName⟩ := hd.name_place h.names
  have hAbove : ∀ {j d'}, Registers ds j d' → (Above ds d.name d'.name ↔
      Relation.TransGen (fun c p => env.types.parent c = some p) (place ds i) (place ds j)) := by
    intro j d' hd'
    obtain ⟨hLt', hName'⟩ := hd'.name_place h.names
    rw [← hName, ← hName']
    exact above_iff h hLt hLt'
  constructor
  · rintro ⟨-, hCircular, hFirst⟩
    have hOn := onCycle_iff_transGen.mpr ((hAbove hd).mp hCircular)
    refine ⟨hOn, fun b hb => ?_⟩
    obtain ⟨p, hp, -⟩ := hOn.of_reaches hb
    have hBelow : b ≠ object := by
      rintro rfl
      rw [Registry.parent, h.root] at hp
      cases hp
    obtain ⟨j, d', hd', rfl⟩ := exists_registers_of_class h.names (lt_of_parent hp) hBelow
    obtain ⟨hLt', hName'⟩ := hd'.name_place h.names
    have hBack := (hOn.of_reaches hb).transGen (hOn.reaches_back hb)
    rw [← above_iff h hLt' hLt, hName, hName'] at hBack
    exact (hd.place_le_iff hd').mpr (hFirst j d' hd' ((hAbove hd').mpr (hOn.transGen hb)) hBack)
  · rintro ⟨hOn, hFirst⟩
    refine ⟨hd, (hAbove hd).mpr (onCycle_iff_transGen.mp hOn), fun j d' hd' hUp _ => ?_⟩
    exact (hd.place_le_iff hd').mp (hFirst _ ((hAbove hd').mp hUp).to_reflTransGen)

end Linked

/-- The reports about cycles, in order of declaration. -/
theorem exists_heads (hFresh : ∀ d ∈ ds, d.resolved = none) (h : Registered (firsts ds) linked) :
    ∃ heads : List Nat, heads.Pairwise (· < ·) ∧ (∀ i, i ∈ heads ↔ ∃ d, HeadsCycle ds i d) ∧
      cycleReports linked.types (registered ds) = heads.filterMap fun i => ds[i]?.map cycleReport := by
  classical
  refine ⟨(List.range ds.length).filter fun i => decide (∃ d, HeadsCycle ds i d), ?_, ?_, ?_⟩
  · exact pairwise_lt_range.filter _
  · intro i
    rw [mem_filter, mem_range, decide_eq_true_eq]
    exact ⟨fun hi => hi.2, fun hHead => ⟨hHead.choose_spec.registers.lt, hHead⟩⟩
  · have hLength : (registered ds).length = ds.length := length_mapIdx
    rw [cycleReports, ← due_range (registered ds), due, filterMap_filterMap, hLength, filterMap_filter]
    refine filterMap_congr ?_
    intro i hi
    rw [mem_range] at hi
    have hd := List.getElem?_eq_getElem hi
    by_cases hRegisters : Registers ds i ds[i]
    · have hIff : (∃ d, HeadsCycle ds i d) ↔ linked.types.HeadsCycle (place ds i) := by
        rw [← headsCycle_iff h hRegisters]
        refine ⟨?_, fun hHead => ⟨_, hHead⟩⟩
        rintro ⟨d, hHead⟩
        obtain rfl := Option.some.inj (hd.symm.trans hHead.registers.here)
        exact hHead
      simp only [getElem?_registered hRegisters, hd, Option.bind_some, Option.some.injEq,
        exists_eq_left', hIff, decide_eq_true_eq, Option.map_some]
      rfl
    · have hNot : ¬ ∃ d, HeadsCycle ds i d := by
        rintro ⟨d, hHead⟩
        obtain rfl := Option.some.inj (hd.symm.trans hHead.registers.here)
        exact hRegisters hHead.registers
      simp [getElem?_registered_of_not hd hRegisters, hNot, hFresh _ (getElem_mem hi)]

/-- Every cycle has one head. -/
theorem existsUnique_headsCycle (h : Registered (firsts ds) env) {name : String}
    (hName : Above ds name name) : ∃! i, ∃ d, HeadsCycle ds i d ∧ Above ds name d.name := by
  obtain ⟨c, hc, rfl⟩ : ∃ c, c.index < env.types.classes.length ∧ (env.types.classInfo c).name = name := by
    obtain ⟨super, hSuper, -⟩ := Relation.TransGen.head'_iff.mp hName
    cases hFound : env.types.lookupClass name with
    | some c => exact ⟨c, (h.found _ _).mp hFound⟩
    | none =>
      have hUnknown := h.found.lookupClass_eq_none_iff.mp hFound
      rw [h.names, mem_names_firsts, mem_cons, not_or] at hUnknown
      rw [declaredParent, if_neg hUnknown.1] at hSuper
      obtain ⟨d, hd, -⟩ := Option.map_eq_some_iff.mp hSuper
      obtain rfl : d.name = name := by simpa using List.find?_some hd
      exact absurd (mem_map_of_mem (mem_of_find?_eq_some hd)) hUnknown.2
  have hOn := onCycle_iff_transGen.mpr ((above_iff h hc hc).mp hName)
  obtain ⟨b, hb, hHead⟩ := hOn.exists_head
  obtain ⟨p, hp, -⟩ := hHead.onCycle
  have hBelow : b ≠ object := by
    rintro rfl
    rw [Registry.parent, h.root] at hp
    cases hp
  obtain ⟨i, d, hd, rfl⟩ := exists_registers_of_class h.names (lt_of_parent hp) hBelow
  obtain ⟨hLt, hPlace⟩ := hd.name_place h.names
  refine ⟨i, ⟨d, (headsCycle_iff h hd).mpr hHead, ?_⟩, ?_⟩
  · rw [← hPlace, above_iff h hc hLt]
    exact hOn.transGen hb
  · rintro j ⟨d', hHead', hAbove⟩
    have hd' := hHead'.registers
    obtain ⟨hLt', hPlace'⟩ := hd'.name_place h.names
    rw [headsCycle_iff h hd'] at hHead'
    rw [← hPlace', above_iff h hc hLt'] at hAbove
    -- Both heads lie on the cycle of the given class, so neither comes before the other.
    have hb' : env.types.Reaches c (place ds j) := hAbove.to_reflTransGen
    have hLe := hHead.first _ (Relation.ReflTransGen.trans (hOn.reaches_back hb) hb')
    have hGe := hHead'.first _ (Relation.ReflTransGen.trans (hOn.reaches_back hb') hb)
    exact Nat.le_antisymm ((hd'.place_le_iff hd).mp hGe) ((hd.place_le_iff hd').mp hLe)

end ClassDecl

/-- A class that heads a cycle extends the root, and any other one what it asks for. -/
theorem Gathered.parent_place {ds : List ClassDecl} {linked env : Env} (h : Gathered ds linked env)
    {i : Nat} {d : ClassDecl} (hd : ClassDecl.Registers ds i d) :
    (ClassDecl.HeadsCycle ds i d → env.types.parent (ClassDecl.place ds i) = some object) ∧
      (¬ ClassDecl.HeadsCycle ds i d →
        (env.types.parent (ClassDecl.place ds i)).map (fun p => (env.types.classInfo p).name) =
          ClassDecl.declaredParent ds d.name) := by
  obtain ⟨hLt, -⟩ := hd.name_place h.names
  obtain ⟨hLt', hName⟩ := hd.name_place h.registered.names
  have hNames : env.types.classes.map ClassInfo.name = linked.types.classes.map ClassInfo.name :=
    h.names.trans h.registered.names.symm
  rw [ClassDecl.headsCycle_iff h.registered hd]
  refine ⟨h.mended.heads _ hLt, fun hNot => ?_⟩
  rw [h.mended.others _ fun hHead => hNot hHead.2, ← hName,
    ClassDecl.declaredParent_name h.registered hLt']
  refine congrArg (Option.map · _) (funext fun p => ?_)
  have hAt := congrArg (·[p.index]?) hNames
  simp only [List.getElem?_map] at hAt
  rw [classInfo, classInfo]
  cases hFound : env.types.classes[p.index]? <;> cases hFound' : linked.types.classes[p.index]? <;>
    simp_all

open ClassDecl in
/-- What collecting the classes of a program comes to. The first classes of cycles are reported, each
once and in order of declaration, and now extend the root. All other declared links stay. The line of
every class ends with the root, and each declaration that registered a class is due once, after that of
the parent. -/
structure Repaired (ds : List ClassDecl) (x : Checked ((List ClassDecl × List Nat) × Env)) : Prop where
  reports : ∃ heads : List Nat, heads.Pairwise (· < ·) ∧ (∀ i, i ∈ heads ↔ ∃ d, HeadsCycle ds i d) ∧
    x.log.filter Diagnostic.isCircular = heads.filterMap fun i => ds[i]?.map cycleReport
  one_per_cycle : ∀ name, Above ds name name → ∃! i, ∃ d, HeadsCycle ds i d ∧ Above ds name d.name
  registers : ∀ i d, Registers ds i d → ∃ c, c ≠ object ∧
    x.value.1.1[i]? = some { d with resolved := some c } ∧
    x.value.2.types.lookupClass d.name = some c ∧
    (HeadsCycle ds i d → x.value.2.types.parent c = some object) ∧
    (¬ HeadsCycle ds i d → (x.value.2.types.parent c).map (fun p => (x.value.2.types.classInfo p).name) =
      declaredParent ds d.name)
  refuses : ∀ i d, ds[i]? = some d → ¬ Registers ds i d → x.value.1.1[i]? = some d
  declared : ∀ c, c.index < x.value.2.types.classes.length → c ≠ object →
    ∃ i d, Registers ds i d ∧ x.value.2.types.lookupClass d.name = some c
  lines : ∀ c, c.index < x.value.2.types.classes.length →
    Registry.Line x.value.2.types c (x.value.2.types.chain c) ∧ (x.value.2.types.chain c).Nodup ∧
      (x.value.2.types.chain c).getLast? = some object
  due_once : x.value.1.2.Nodup ∧ ∀ i, i ∈ x.value.1.2 ↔ ∃ d, Registers ds i d
  parents_first : ∀ i j d d' c p, Registers ds i d → Registers ds j d' →
    x.value.2.types.lookupClass d.name = some c → x.value.2.types.lookupClass d'.name = some p →
    x.value.2.types.parent c = some p → x.value.1.2.idxOf j < x.value.1.2.idxOf i

namespace Analysis

open ClassDecl

/-- Cycles are reported by the search for them and by nothing else. -/
theorem filter_isCircular_of_linkReports (r : Registry) (ds : List ClassDecl) :
    (ds.flatMap r.linkReports).filter Diagnostic.isCircular = [] := by
  rw [filter_eq_nil_iff]
  intro x hx
  obtain ⟨d, -, hx⟩ := mem_flatMap.mp hx
  rw [linkReports] at hx
  split at hx
  · rw [mem_singleton.mp hx]
    exact Bool.false_ne_true
  · cases hx

theorem filter_isCircular_cycleReports (r : Registry) (ds : List ClassDecl) :
    (cycleReports r ds).filter Diagnostic.isCircular = cycleReports r ds := by
  rw [filter_eq_self]
  intro x hx
  obtain ⟨d, -, hx⟩ := mem_filterMap.mp hx
  split at hx
  · cases hx
    rfl
  · cases hx

theorem filter_isCircular_redefinitions (ds : List ClassDecl) :
    (ds.map redefinition).filter Diagnostic.isCircular = [] := by
  rw [filter_eq_nil_iff, forall_mem_map]
  intro d _
  exact Bool.false_ne_true

/-- Whatever classes a program declares, collecting them leaves a tree below the root, at the price of one
reported link for each cycle. What members they declare plays no part. -/
theorem repaired_collectClasses (ds : List ClassDecl) (hFresh : ∀ d ∈ ds, d.resolved = none) :
    Repaired ds (collectClasses ds {}) := by
  obtain ⟨linked, env, h, hValue, hLog⟩ := exists_gathered hFresh
  have hLineal := h.lineal
  constructor
  case reports =>
    rw [hLog, filter_append, filter_append, filter_isCircular_redefinitions,
      filter_isCircular_of_linkReports, filter_isCircular_cycleReports]
    exact exists_heads hFresh h.registered
  case one_per_cycle => exact fun _ => existsUnique_headsCycle h.registered
  all_goals simp only [hValue]
  case registers =>
    intro i d hd
    exact ⟨place ds i, Registers.place_ne_object ds i, getElem?_registered hd, hd.lookupClass h.names hLineal.found,
      h.parent_place hd⟩
  case refuses => exact fun i d => getElem?_registered_of_not
  case declared =>
    intro c hc hBelow
    obtain ⟨i, d, hd, rfl⟩ := exists_registers_of_class h.names hc hBelow
    exact ⟨i, d, hd, hd.lookupClass h.names hLineal.found⟩
  case lines =>
    exact fun c hc => ⟨hLineal.acyclic.line_chain c, nodup_chain _ c, hLineal.getLast?_chain hc⟩
  case due_once =>
    exact ⟨nodup_declarationOrder _ _, fun i => mem_order_iff hFresh⟩
  case parents_first =>
    intro i j d d' c p hd hd' hc hp hParent
    rw [hd.lookupClass h.names hLineal.found, Option.some.injEq] at hc
    rw [hd'.lookupClass h.names hLineal.found, Option.some.injEq] at hp
    exact idxOf_lt_of_parent hLineal.acyclic (getElem?_registered hd) (getElem?_registered hd')
      (congrArg some hc) (congrArg some hp) hParent

/-- Two cycles, a class that extends one of them, a name that is declared twice, a parent that is not
known, and a second root. -/
def tangled : List ClassDecl :=
  [{ line := 1, name := "Tail", parent := some "B" }, { line := 2, name := "A", parent := some "B" },
   { line := 3, name := "B", parent := some "A" }, { line := 4, name := "A", parent := some "Tail" },
   { line := 5, name := "Loop", parent := some "Loop" }, { line := 6, name := "Lost", parent := some "No" },
   { line := 7, name := "Object", parent := some "A" }]

theorem repaired_collectClasses_tangled : (∀ d ∈ tangled, d.resolved = none) ∧
    Repaired tangled (collectClasses tangled {}) ∧
    (collectClasses tangled {}).log.filter Diagnostic.isCircular =
      [⟨2, .circularInheritance "A"⟩, ⟨5, .circularInheritance "Loop"⟩] ∧
    (collectClasses tangled {}).value.1.2 = [1, 4, 5, 2, 0] :=
  ⟨by decide, repaired_collectClasses tangled (by decide), by decide +kernel, by decide +kernel⟩

end Analysis
end TLang
