import TLang.Proofs.Inheritance

/-! Collecting classes, whatever is reported. If the names of the classes are distinct and no class
inherits from itself, then each class has the number of its declaration and extends the class that it
names, or the root if that one is not known. -/
namespace TLang

open Registry Analysis List

variable {d : ClassDecl} {id : ClassId} {bare : List ClassInfo}

variable {ds : List ClassDecl} {env : Env}

namespace Registry

variable {r r' : Registry}

/-- The class that a declaration names as its parent, or else the root. -/
def parentOf (r : Registry) (d : ClassDecl) : ClassId :=
  (r.lookupClass (d.parent.getD objectName)).getD object

/-- What is reported when a declaration is linked to its parent. -/
def linkReports (r : Registry) (d : ClassDecl) : List Diagnostic :=
  if r.lookupClass (d.parent.getD objectName) = none then
    [⟨d.line, .unknownParent d.name (d.parent.getD objectName)⟩]
  else []

theorem parentOf_of_table (h : r'.byName = r.byName) (d : ClassDecl) : r'.parentOf d = r.parentOf d := by
  rw [parentOf, lookupClass, h, ← lookupClass, parentOf]

theorem linkReports_of_table (h : r'.byName = r.byName) (d : ClassDecl) :
    r'.linkReports d = r.linkReports d := by
  rw [linkReports, lookupClass, h, ← lookupClass, linkReports]

end Registry

namespace ClassDecl

theorem linkParent_apply (hResolved : d.resolved = some id) (env : Env) :
    d.linkParent env = ⟨((), { env with types := env.types.setParent id (env.types.parentOf d) }),
      env.types.linkReports d⟩ := by
  cases hFound : env.types.lookupClass (d.parent.getD objectName) with
  | none => apply Logged.ext <;> simp [linkParent, hResolved, hFound, parentOf, linkReports]
  | some p => apply Logged.ext <;> simp [linkParent, hResolved, hFound, parentOf, linkReports]

theorem linkParent_bind (hResolved : d.resolved = some id) (k : Unit → Analysis Unit) (env : Env) :
    (d.linkParent >>= k) env =
      let rest := k () { env with types := env.types.setParent id (env.types.parentOf d) }
      ⟨rest.value, env.types.linkReports d ++ rest.log⟩ := by
  apply Logged.ext <;> simp [linkParent_apply hResolved]

/-- The registry once some declarations were linked. -/
structure LinkedAs (bare : List ClassInfo) (ds : List ClassDecl) (env : Env) (x : Checked (Unit × Env)) :
    Prop where
  linking : Linking bare x.value.2
  byName : x.value.2.types.byName = env.types.byName
  methods : x.value.2.types.methods = env.types.methods
  globals : x.value.2.globals = env.globals
  position : x.value.2.position = env.position
  parents : ∀ d ∈ ds, ∀ id, d.resolved = some id →
    x.value.2.types.parent id = some (env.types.parentOf d)
  others : ∀ c, some c ∉ ds.map ClassDecl.resolved → x.value.2.types.parent c = env.types.parent c
  log : x.log = ds.flatMap env.types.linkReports

theorem Linking.names (h : Linking bare env) :
    env.types.classes.map ClassInfo.name = bare.map ClassInfo.name := by
  rw [← h.classes, map_map]
  rfl

/-- Each class is linked to the parent it names, or to the root. Cycles are still there after this. -/
theorem linkedAs_forM
    (hDs : ∀ d ∈ ds, ∃ id : ClassId, d.resolved = some id ∧ id ≠ object ∧ id.index < bare.length)
    (hDistinct : (ds.map ClassDecl.resolved).Nodup) (hLinking : Linking bare env) :
    LinkedAs bare ds env (ds.forM linkParent env) := by
  induction ds generalizing env with
  | nil =>
    refine ⟨hLinking, rfl, rfl, rfl, rfl, ?_, fun _ _ => rfl, rfl⟩
    exact fun d hd => absurd hd not_mem_nil
  | cons d ds ih =>
    rw [forall_mem_cons] at hDs
    obtain ⟨⟨id, hResolved, hBelow, hId⟩, hDs⟩ := hDs
    rw [map_cons, nodup_cons, hResolved] at hDistinct
    rw [← hLinking.classes, length_map] at hId
    have hParent : (env.types.parentOf d).index < env.types.classes.length := by
      rw [parentOf]
      cases hFound : env.types.lookupClass (d.parent.getD objectName) with
      | none => exact Nat.lt_of_le_of_lt (Nat.zero_le _) hId
      | some p => exact ((hLinking.found _ p).mp hFound).1
    have hNext := hLinking.setParent hBelow hId hParent
    obtain ⟨hLinked, hTable, hMethods, hGlobals, hPosition, hParents, hOthers, hLog⟩ :=
      ih hDs hDistinct.2 hNext
    have hCons : (d :: ds).forM linkParent = (d.linkParent >>= fun _ => ds.forM linkParent) := rfl
    rw [hCons, linkParent_bind hResolved]
    refine ⟨hLinked, hTable, hMethods, hGlobals, hPosition, ?_, ?_, ?_⟩
    · rw [forall_mem_cons]
      refine ⟨?_, ?_⟩
      · intro id' hId'
        obtain rfl : id = id' := Option.some.inj (hResolved.symm.trans hId')
        exact (hOthers id hDistinct.1).trans (parent_setParent_self hId)
      · intro d' hd' id' hId'
        exact hParents d' hd' id' hId'
    · intro c hc
      rw [map_cons, mem_cons, not_or, hResolved, Option.some.injEq] at hc
      exact (hOthers c hc.2).trans (parent_setParent_of_ne hc.1)
    · rw [flatMap_cons]
      exact congrArg (_ ++ ·) hLog

/-- Where there is no cycle, the repair changes nothing and reports nothing. -/
theorem forM_breakCycle (ds : List ClassDecl) (hAcyclic : env.types.Acyclic) :
    ds.forM breakCycle env = ⟨((), env), []⟩ := by
  induction ds with
  | nil => rfl
  | cons d ds ih =>
    have hFirst : d.breakCycle env = ⟨((), env), []⟩ := by
      cases hResolved : d.resolved with
      | none => apply Logged.ext <;> simp [breakCycle, hResolved]
      | some id =>
        have hNot := acyclic_iff.mp hAcyclic id
        apply Logged.ext <;> simp [breakCycle, hResolved, hNot]
    have hCons : (d :: ds).forM breakCycle = (d.breakCycle >>= fun _ => ds.forM breakCycle) := rfl
    rw [hCons]
    apply Logged.ext
    · simp only [value_bind, hFirst, ih]
    · simp only [log_bind, hFirst, ih, append_nil]

end ClassDecl

/-- The environment in which all classes are registered and linked, and nothing is declared. -/
structure Registered (ds : List ClassDecl) (env : Env) : Prop where
  names : env.types.classes.map ClassInfo.name = objectName :: ds.map ClassDecl.name
  found : env.types.FoundByName
  root : env.types.classInfo object = initial.classInfo object
  declared : ∀ d ∈ ds, ∃ c, env.types.lookupClass d.name = some c ∧ c ≠ object ∧
    env.types.classInfo c = { name := d.name, parent := some (env.types.parentOf d) }
  methods : env.types.methods = initial.methods
  globals : env.globals = {}
  position : env.position = {}

namespace Registered

variable (h : Registered ds env)

include h

theorem length : env.types.classes.length = ds.length + 1 := by
  have hLength := congrArg List.length h.names
  simpa using hLength

/-- Every class but the root has a declaration. -/
theorem exists_declaration {c : ClassId} (hc : c.index < env.types.classes.length)
    (hBelow : c ≠ object) : ∃ d ∈ ds, env.types.lookupClass d.name = some c ∧
      env.types.classInfo c = { name := d.name, parent := some (env.types.parentOf d) } := by
  have hLookup := h.found.lookupClass_name hc
  have hName := mem_names_iff.mpr ⟨c, hc, rfl⟩
  rw [h.names, mem_cons] at hName
  rcases hName with hName | hName
  · have hRoot : (env.types.classInfo object).name = objectName := by rw [h.root]; rfl
    have hZero : object.index < env.types.classes.length := Nat.lt_of_le_of_lt (Nat.zero_le _) hc
    exact absurd (h.found.eq_of_name hc hZero (hName.trans hRoot.symm)) hBelow
  · obtain ⟨d, hd, hEq⟩ := mem_map.mp hName
    obtain ⟨c', hFound, -, hInfo⟩ := h.declared d hd
    rw [hEq, hLookup] at hFound
    obtain rfl := Option.some.inj hFound
    exact ⟨d, hd, hEq ▸ hLookup, hInfo⟩

end Registered

namespace ClassDecl

theorem resolved_numbered (start : Nat) (ds : List ClassDecl) :
    (numbered start ds).map ClassDecl.resolved =
      (List.range' start ds.length).map fun k => some ⟨k⟩ := by
  apply ext_getElem?
  intro i
  simp only [numbered, List.getElem?_map, List.getElem?_mapIdx]
  by_cases hi : i < ds.length
  · simp [hi]
  · simp [hi]

/-- Linking the classes of a program from the start. -/
theorem linkedAs_numbered (hNames : (objectName :: ds.map ClassDecl.name).Nodup) :
    LinkedAs (bareClasses ds) (numbered 1 ds) { types := bareRegistry ds }
      ((numbered 1 ds).forM linkParent { types := bareRegistry ds }) := by
  refine linkedAs_forM ?_ ?_ (linking_bareClasses hNames)
  · intro d hd
    obtain ⟨i, hi, rfl⟩ := mem_numbered hd
    refine ⟨⟨1 + i⟩, rfl, ?_, ?_⟩
    · simp [object]
    · simp [bareClasses, initial, Nat.one_add_le_iff, hi]
  · rw [resolved_numbered]
    have hRange : (List.range' 1 ds.length).Nodup := nodup_range'
    exact hRange.map fun _ _ hEq => by simpa using hEq

/-- Linking the classes of a program leaves them registered. -/
theorem LinkedAs.registered {x : Checked (Unit × Env)}
    (h : LinkedAs (bareClasses ds) (numbered 1 ds) { types := bareRegistry ds } x) :
    Registered ds x.value.2 := by
  refine ⟨h.linking.classNames, h.linking.found, h.linking.root, ?_, h.methods, h.globals, h.position⟩
  intro d hd
  obtain ⟨i, hi, rfl⟩ := mem_iff_getElem.mp hd
  have hBelow : (⟨i + 1⟩ : ClassId) ≠ object := by simp [object]
  have hLookup := h.linking.found.lookupClass_name (c := ⟨i + 1⟩)
    (by rw [h.linking.length]; exact Nat.succ_lt_succ hi)
  have hName := h.linking.name hi
  rw [hName] at hLookup
  refine ⟨⟨i + 1⟩, hLookup, hBelow, ?_⟩
  have hParent : x.value.2.types.parent ⟨i + 1⟩ = some (x.value.2.types.parentOf ds[i]) := by
    rw [parentOf_of_table h.byName, Nat.add_comm]
    exact h.parents _ (mem_mapIdx.mpr ⟨i, hi, rfl⟩) _ rfl
  obtain ⟨name, hOrphan⟩ := h.linking.bare hBelow
  rw [Registry.parent] at hParent
  generalize x.value.2.types.classInfo ⟨i + 1⟩ = c at hName hParent hOrphan
  cases c
  simp only [ClassInfo.orphan, ClassInfo.mk.injEq] at hName hParent hOrphan ⊢
  exact ⟨hName, hParent, hOrphan.2.2⟩

/-- The declaration with the number under which its class is found. -/
def located (env : Env) (d : ClassDecl) : ClassDecl :=
  { d with resolved := env.types.lookupClass d.name }

/-- Registered classes are numbered in the order of the text, behind the root. -/
theorem numbered_eq (h : Registered ds env) : numbered 1 ds = ds.map (located env) := by
  apply ext_getElem
  · simp [numbered]
  · intro i hi hi'
    rw [length_map] at hi'
    have hc : i + 1 < env.types.classes.length := h.length ▸ Nat.succ_lt_succ hi'
    have hName : (env.types.classInfo ⟨i + 1⟩).name = ds[i].name := by
      have hAt := congrArg (·[i + 1]?) h.names
      simpa [classInfo, hc, hi'] using hAt
    have hLookup := h.found.lookupClass_name (c := ⟨i + 1⟩) hc
    rw [hName] at hLookup
    simp [numbered, located, hLookup, Nat.add_comm]

end ClassDecl

end TLang
