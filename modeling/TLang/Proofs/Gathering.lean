import TLang.Proofs.Registration
import TLang.Proofs.Registry.Cycles
import TLang.Proofs.Turns

/-! Collecting the classes of any program, whatever is reported. Of several declarations of one name
the first one registers a class, and none registers the root again. Cycles of the links that these
declarations ask for are broken one after the other, so that in the end the line of every class leads to
the root. The declarations that registered a class are due once each, after that of the parent. -/
namespace TLang

open Registry Analysis List

variable {d' d : ClassDecl} {i : Nat}

variable {j : Nat} {r₀ : Registry} {c : ClassId} {bare : List ClassInfo}

namespace ClassDecl

variable {ds : List ClassDecl} {d : ClassDecl} {i : Nat} {env : Env}

/-- The declarations that register a class. -/
def firsts (ds : List ClassDecl) : List ClassDecl :=
  ds.foldl (fun kept d =>
    if d.name ∈ objectName :: kept.map ClassDecl.name then kept else kept ++ [d]) []

/-- The declaration at an index is the first one of its name, which is not that of the root. -/
structure Registers (ds : List ClassDecl) (i : Nat) (d : ClassDecl) : Prop where
  here : ds[i]? = some d
  new : d.name ∉ objectName :: (ds.take i).map ClassDecl.name

/-- The number of the class that the declaration at an index registers. -/
def place (ds : List ClassDecl) (i : Nat) : ClassId := ⟨(firsts (ds.take i)).length + 1⟩

section

variable (ds)

/-- Leaving out later declarations of a name loses no name. The name of the root counts as declared from the
start. -/
theorem mem_names_firsts (name : String) :
    name ∈ objectName :: (firsts ds).map ClassDecl.name ↔ name ∈ objectName :: ds.map ClassDecl.name := by
  induction ds using List.reverseRecOn generalizing name with
  | nil => rfl
  | append_singleton ds d ih =>
    rw [firsts, foldl_append, ← firsts, foldl_cons, foldl_nil]
    split
    · rename_i hKnown
      rw [ih] at hKnown ⊢
      simp only [mem_cons, map_append, mem_append, map_nil, map_cons, not_mem_nil, or_false] at hKnown ⊢
      constructor
      · exact fun h => h.imp_right .inl
      · rintro (h | h | rfl)
        · exact .inl h
        · exact .inr h
        · exact hKnown
    · have ih := ih name
      simp only [mem_cons, map_append, mem_append] at ih ⊢
      rw [← or_assoc, ih, or_assoc]

theorem firsts_concat (d : ClassDecl) : firsts (ds ++ [d]) =
    if d.name ∈ objectName :: ds.map ClassDecl.name then firsts ds else firsts ds ++ [d] := by
  rw [firsts, foldl_append, ← firsts, foldl_cons, foldl_nil]
  simp only [mem_names_firsts]

theorem nodup_names_firsts : (objectName :: (firsts ds).map ClassDecl.name).Nodup := by
  induction ds using List.reverseRecOn with
  | nil => exact nodup_singleton _
  | append_singleton ds d ih =>
    rw [firsts_concat]
    split
    · exact ih
    · rename_i hNew
      rw [map_append, ← cons_append, map_singleton, ← concat_eq_append]
      exact ih.concat fun hOld => hNew ((mem_names_firsts ds d.name).mp hOld)

theorem firsts_isPrefix (es : List ClassDecl) : firsts ds <+: firsts (ds ++ es) := by
  induction es using List.reverseRecOn with
  | nil => rw [append_nil]
  | append_singleton es e ih =>
    rw [← append_assoc, firsts_concat]
    split
    · exact ih
    · exact ih.trans (prefix_append _ _)

end

namespace Registers

section

variable (h : Registers ds i d)
include h

theorem lt : i < ds.length := (List.getElem?_eq_some_iff.mp h.here).1

theorem firsts_take_succ : firsts (ds.take (i + 1)) = firsts (ds.take i) ++ [d] := by
  rw [take_add_one, h.here, Option.toList_some, firsts_concat, if_neg h.new]

theorem getElem?_firsts : (firsts ds)[(firsts (ds.take i)).length]? = some d := by
  have hPrefix := firsts_isPrefix (ds.take (i + 1)) (ds.drop (i + 1))
  rw [take_append_drop, h.firsts_take_succ] at hPrefix
  obtain ⟨rest, hRest⟩ := hPrefix
  rw [← hRest, append_assoc, List.getElem?_append_right (Nat.le_refl _), Nat.sub_self]
  rfl

theorem mem_firsts : d ∈ firsts ds := mem_of_getElem? h.getElem?_firsts

/-- Classes are numbered in the order of their declarations, those that are not registered taking no number. -/
theorem place_lt_place (hij : i < j) : (place ds i).index < (place ds j).index := by
  have hPrefix := firsts_isPrefix (ds.take (i + 1)) ((ds.take j).drop (i + 1))
  have hTake : ds.take (i + 1) = (ds.take j).take (i + 1) := by
    rw [take_take, Nat.min_eq_left (Nat.succ_le_of_lt hij)]
  nth_rewrite 2 [hTake] at hPrefix
  rw [take_append_drop, h.firsts_take_succ] at hPrefix
  have hLength := hPrefix.length_le
  rw [length_append, length_singleton] at hLength
  exact Nat.succ_lt_succ hLength

theorem place_le_iff (h' : Registers ds j d') : (place ds i).index ≤ (place ds j).index ↔ i ≤ j := by
  rcases Nat.lt_trichotomy i j with hij | rfl | hij
  · have hPlace := h.place_lt_place hij
    omega
  · exact ⟨fun _ => Nat.le_refl _, fun _ => Nat.le_refl _⟩
  · have hPlace := h'.place_lt_place hij
    omega

end

theorem place_ne_object (ds : List ClassDecl) (i : Nat) : place ds i ≠ object := by
  simp [place, object]

/-- A declaration that registers a class is the first one of its name. -/
theorem find?_eq (h : Registers ds i d) : ds.find? (·.name == d.name) = some d := by
  obtain ⟨hi, rfl⟩ := List.getElem?_eq_some_iff.mp h.here
  rw [List.find?_eq_some_iff_getElem]
  refine ⟨beq_self_eq_true _, i, hi, rfl, ?_⟩
  intro j hj
  rw [Bool.not_eq_true', beq_eq_false_iff_ne]
  intro hEq
  refine h.new (mem_cons_of_mem _ (hEq ▸ mem_map_of_mem ?_))
  exact mem_take_iff_getElem.mpr ⟨j, by omega, rfl⟩

theorem concat (h : Registers ds i d) (e : ClassDecl) : Registers (ds ++ [e]) i d where
  here := (List.getElem?_append_left h.lt).trans h.here
  new := by
    rw [take_append_of_le_length (Nat.le_of_lt h.lt)]
    exact h.new

end Registers

/-- Every declaration that registers a class stands at some index. -/
theorem exists_registers {k : Nat} (hk : (firsts ds)[k]? = some d) :
    ∃ i, Registers ds i d ∧ place ds i = ⟨k + 1⟩ := by
  induction ds using List.reverseRecOn with
  | nil => cases hk
  | append_singleton ds e ih =>
    have hEarlier : (firsts ds)[k]? = some d →
        ∃ i, Registers (ds ++ [e]) i d ∧ place (ds ++ [e]) i = ⟨k + 1⟩ := by
      intro hk
      obtain ⟨i, hi, hPlace⟩ := ih hk
      refine ⟨i, hi.concat e, ?_⟩
      rw [place, take_append_of_le_length (Nat.le_of_lt hi.lt)]
      exact hPlace
    rw [firsts_concat] at hk
    split at hk
    · exact hEarlier hk
    · rename_i hNew
      by_cases hLt : k < (firsts ds).length
      · exact hEarlier (by rwa [List.getElem?_append_left hLt] at hk)
      · rw [List.getElem?_append_right (Nat.le_of_not_lt hLt),
          List.getElem?_singleton] at hk
        split at hk
        · rename_i hZero
          cases hk
          refine ⟨ds.length, ⟨by simp, ?_⟩, ?_⟩
          · rw [take_left' rfl]
            exact hNew
          · rw [place, take_left' rfl, ClassId.mk.injEq]
            omega
        · cases hk

/-- The declarations after registration. -/
def registered (ds : List ClassDecl) : List ClassDecl :=
  ds.mapIdx fun i d =>
    if d.name ∈ objectName :: (ds.take i).map ClassDecl.name then d
    else { d with resolved := some (place ds i) }

/-- One more declaration gets the next number, unless its name is taken. What was numbered before stays as it
was. -/
theorem registered_concat (ds : List ClassDecl) (d : ClassDecl) :
    registered (ds ++ [d]) = registered ds ++ [if d.name ∈ objectName :: ds.map ClassDecl.name then d
        else { d with resolved := some ⟨(firsts ds).length + 1⟩ }] := by
  rw [registered, mapIdx_append, registered]
  congr 1
  · refine mapIdx_eq_mapIdx_iff.mpr ?_
    intro i hi
    rw [place, take_append_of_le_length (Nat.le_of_lt hi), place]
  · simp [place]

/-- The declarations that register no class, each at its index. -/
def gaps (ds : List ClassDecl) : List (Option ClassDecl) :=
  ds.mapIdx fun i d =>
    if d.name ∈ objectName :: (ds.take i).map ClassDecl.name then some d else none

theorem gaps_concat (ds : List ClassDecl) (d : ClassDecl) : gaps (ds ++ [d]) =
    gaps ds ++ [if d.name ∈ objectName :: ds.map ClassDecl.name then some d else none] := by
  rw [gaps, mapIdx_append, gaps]
  congr 1
  · refine mapIdx_eq_mapIdx_iff.mpr ?_
    intro i hi
    rw [take_append_of_le_length (Nat.le_of_lt hi)]
  · simp

/-- What is reported about a declaration that registers no class. -/
def redefinition (d : ClassDecl) : Diagnostic := ⟨d.line, .classRedefined d.name⟩

theorem register_apply (d : ClassDecl) (env : Env) : d.register env =
    if (env.types.lookupClass d.name).isSome then ⟨(d, env), [d.redefinition]⟩
    else ⟨({ d with resolved := some ⟨env.types.classes.length⟩ },
      { env with types := env.types.pushClass d.name }), []⟩ := by
  by_cases hTaken : (env.types.lookupClass d.name).isSome
  · apply Logged.ext <;> simp [register, change_apply, Change.on_registerClass, hTaken, redefinition]
  · apply Logged.ext <;> simp [register, change_apply, Change.on_registerClass, hTaken]

/-- Unless a class is registered twice, all declarations register one. -/
theorem registered_of_gaps (h : (gaps ds).reduceOption = []) :
    firsts ds = ds ∧ registered ds = numbered 1 ds := by
  induction ds using List.reverseRecOn with
  | nil => exact ⟨rfl, rfl⟩
  | append_singleton ds d ih =>
    rw [gaps_concat, reduceOption_append, append_eq_nil_iff] at h
    obtain ⟨hFirsts, hRegistered⟩ := ih h.1
    have hNew : d.name ∉ objectName :: ds.map ClassDecl.name := by
      intro hKnown
      rw [if_pos hKnown] at h
      cases h.2
    rw [firsts_concat, registered_concat, if_neg hNew, if_neg hNew, hFirsts, hRegistered]
    simp [numbered, mapIdx_append, Nat.add_comm]

theorem gaps_of_nodup (hNames : (objectName :: ds.map ClassDecl.name).Nodup) : (gaps ds).reduceOption = [] := by
  induction ds using List.reverseRecOn with
  | nil => rfl
  | append_singleton ds d ih =>
    rw [map_append, ← cons_append, map_singleton, nodup_append_comm, singleton_append, nodup_cons] at hNames
    rw [gaps_concat, if_neg hNames.1, reduceOption_append, ih hNames.2]
    rfl

end ClassDecl

/-- The diagnostic is about a cycle of inheritance. -/
def Diagnostic.isCircular (d : Diagnostic) : Bool :=
  match d.fault with
  | .circularInheritance _ => true
  | _ => false

namespace ClassDecl

variable {ds : List ClassDecl} {d : ClassDecl} {i : Nat} {env : Env}

theorem getElem?_registered (h : Registers ds i d) :
    (registered ds)[i]? = some { d with resolved := some (place ds i) } := by
  rw [registered, List.getElem?_mapIdx, h.here, Option.map_some, if_neg h.new]

theorem getElem?_registered_of_not (hd : ds[i]? = some d) (h : ¬ Registers ds i d) :
    (registered ds)[i]? = some d := by
  rw [registered, List.getElem?_mapIdx, hd, Option.map_some, if_pos]
  by_contra hNew
  exact h ⟨hd, hNew⟩

/-- The declarations that have a class are those that registered it. -/
theorem resolved_registered_iff (hFresh : ∀ d ∈ ds, d.resolved = none) {c : ClassId} :
    (∃ d, (registered ds)[i]? = some d ∧ d.resolved = some c) ↔
      ∃ d, Registers ds i d ∧ place ds i = c := by
  constructor
  · rintro ⟨d', hd', hc⟩
    obtain ⟨hi, -⟩ := List.getElem?_eq_some_iff.mp hd'
    rw [registered, length_mapIdx] at hi
    have hd := List.getElem?_eq_getElem hi
    by_cases hRegisters : Registers ds i ds[i]
    · rw [getElem?_registered hRegisters] at hd'
      cases hd'
      exact ⟨_, hRegisters, Option.some.inj hc⟩
    · rw [getElem?_registered_of_not hd hRegisters] at hd'
      cases hd'
      rw [hFresh _ (getElem_mem hi)] at hc
      cases hc
  · rintro ⟨d, hd, rfl⟩
    exact ⟨_, getElem?_registered hd, rfl⟩

/-- Registering the classes of a program from the start. -/
theorem mapM_register_start (ds : List ClassDecl) : ds.mapM register {} =
    ⟨(registered ds, { types := bareRegistry (firsts ds) }), (gaps ds).reduceOption.map redefinition⟩ := by
  induction ds using List.reverseRecOn with
  | nil => rfl
  | append_singleton ds d ih =>
    have hLast := register_apply d { types := bareRegistry (firsts ds) }
    have hFound := found_bareRegistry (nodup_names_firsts ds)
    have hTaken : ((bareRegistry (firsts ds)).lookupClass d.name).isSome ↔
        d.name ∈ objectName :: ds.map ClassDecl.name := by
      rw [Option.isSome_iff_ne_none, ne_eq, hFound.lookupClass_eq_none_iff, not_not, ← mem_names_firsts,
        ← names_bareClasses]
      rfl
    have hLength : (bareRegistry (firsts ds)).classes.length = (firsts ds).length + 1 := by
      simp [bareRegistry, bareClasses, initial]
    simp only [hTaken, hLength, ← bareRegistry_concat] at hLast
    have hValue := congrArg Logged.value ih
    have hLog := congrArg Logged.log ih
    rw [mapM_append]
    apply Logged.ext <;>
      simp only [value_bind, log_bind, hValue, hLog, mapM_cons, mapM_nil, pure_apply, hLast,
        registered_concat, firsts_concat, gaps_concat]
    · split <;> rfl
    · split
      · simp [reduceOption_append, redefinition]
      · simp [reduceOption_append]

/-- Classes of distinct names are registered one after the other. -/
theorem mapM_register (hNames : (objectName :: ds.map ClassDecl.name).Nodup) :
    ds.mapM register {} = ⟨(numbered 1 ds, { types := bareRegistry ds }), []⟩ := by
  have hGaps := gaps_of_nodup hNames
  obtain ⟨hFirsts, hRegistered⟩ := registered_of_gaps hGaps
  rw [mapM_register_start, hGaps, hFirsts, hRegistered]
  rfl

/-- The declarations that registered a class are numbered one after the other. -/
theorem filter_registered (hFresh : ∀ d ∈ ds, d.resolved = none) :
    (registered ds).filter (·.resolved.isSome) = numbered 1 (firsts ds) := by
  induction ds using List.reverseRecOn with
  | nil => rfl
  | append_singleton ds d ih =>
    rw [forall_mem_append, forall_mem_singleton] at hFresh
    rw [registered_concat, filter_append, ih hFresh.1, firsts_concat]
    split
    · simp [hFresh.2]
    · simp [numbered, mapIdx_append, Nat.add_comm]

/-- A step that leaves unregistered declarations alone is one over the registered ones. -/
theorem forM_filter {f : ClassDecl → Analysis Unit} (hf : ∀ d : ClassDecl, d.resolved = none → f d = pure ())
    (ds : List ClassDecl) : ds.forM f = (ds.filter (·.resolved.isSome)).forM f := by
  induction ds with
  | nil => rfl
  | cons d ds ih =>
    have hCons : (d :: ds).forM f = (f d >>= fun _ => ds.forM f) := rfl
    cases hResolved : d.resolved with
    | none => rw [hCons, hf d hResolved, pure_bind, filter_cons_of_neg (by simp [hResolved]), ih]
    | some c =>
      rw [hCons, filter_cons_of_pos (by simp [hResolved]), ih]
      rfl

/-- What is reported about a class that is cut off from a cycle. -/
def cycleReport (d : ClassDecl) : Diagnostic := ⟨d.line, .circularInheritance d.name⟩

theorem breakCycle_apply {d : ClassDecl} {c : ClassId} (hResolved : d.resolved = some c) (env : Env) :
    d.breakCycle env = if env.types.inheritsFromItself c then
      ⟨((), { env with types := env.types.setParent c object }), [d.cycleReport]⟩
      else ⟨((), env), []⟩ := by
  by_cases hOn : env.types.inheritsFromItself c = true
  · apply Logged.ext <;> simp [breakCycle, hResolved, hOn, cycleReport]
  · apply Logged.ext <;> simp [breakCycle, hResolved, hOn]

end ClassDecl

/-- Looking at one more class. -/
theorem Registry.MendedBelow.step {r : Registry} (h : MendedBelow c.index r₀ r)
    (hc : c.index < r.classes.length) :
    MendedBelow (c.index + 1) r₀ (if r.inheritsFromItself c then r.setParent c object else r) := by
  have hIff : r.inheritsFromItself c = true ↔ r₀.HeadsCycle c := inheritsFromItself_iff.trans h.onCycle_iff
  have hBelow : ∀ {b : ClassId}, b ≠ c → (b.index < c.index + 1 ↔ b.index < c.index) := by
    intro b hb
    have hIndex : b.index ≠ c.index := fun hEq => hb (by cases b; cases c; exact congrArg _ hEq)
    omega
  split
  · rename_i hOn
    refine ⟨h.root, ?_, ?_⟩
    · intro b hBound hHead
      by_cases hb : b = c
      · rw [hb, parent_setParent_self hc]
      · rw [parent_setParent_of_ne hb]
        exact h.heads b ((hBelow hb).mp hBound) hHead
    · intro b hNot
      by_cases hb : b = c
      · exact absurd ⟨hb ▸ Nat.lt_succ_self _, hb ▸ hIff.mp hOn⟩ hNot
      · rw [parent_setParent_of_ne hb]
        exact h.others b fun hHead => hNot ⟨(hBelow hb).mpr hHead.1, hHead.2⟩
  · rename_i hOff
    refine ⟨h.root, ?_, ?_⟩
    · intro b hBound hHead
      by_cases hb : b = c
      · exact absurd (hIff.mpr (hb ▸ hHead)) hOff
      · exact h.heads b ((hBelow hb).mp hBound) hHead
    · intro b hNot
      exact h.others b fun hHead => hNot ⟨Nat.lt_succ_of_lt hHead.1, hHead.2⟩

namespace ClassDecl

variable {ds : List ClassDecl} {env : Env}

open scoped Classical in
/-- What is reported about the declarations of classes that head a cycle. -/
noncomputable def cycleReports (r₀ : Registry) (ds : List ClassDecl) : List Diagnostic :=
  ds.filterMap fun d => if ∃ c, d.resolved = some c ∧ r₀.HeadsCycle c then some d.cycleReport else none

theorem cycleReports_of_acyclic (h : r₀.Acyclic) (ds : List ClassDecl) : cycleReports r₀ ds = [] := by
  refine filterMap_eq_nil_iff.mpr fun d _ => if_neg ?_
  rintro ⟨c, -, ⟨p, hp, hReaches⟩, -⟩
  exact h c p hp hReaches

/-- Some declarations were looked at, and the cycles that their classes head are broken. -/
structure CyclesBroken (bare : List ClassInfo) (bound : Nat) (r₀ : Registry) (ds : List ClassDecl)
    (env : Env) (x : Checked (Unit × Env)) : Prop where
  linking : Linking bare x.value.2
  mended : MendedBelow bound r₀ x.value.2.types
  methods : x.value.2.types.methods = env.types.methods
  globals : x.value.2.globals = env.globals
  position : x.value.2.position = env.position
  log : x.log = cycleReports r₀ ds

/-- Looking at one class mends the cycle it is on, if no earlier class of that cycle was looked at before. All
other links are left alone. -/
theorem cyclesBroken_breakCycle (hResolved : d.resolved = some c) (hBelow : c ≠ object)
    (hc : c.index < env.types.classes.length) (hLinking : Linking bare env)
    (hMended : MendedBelow c.index r₀ env.types) :
    CyclesBroken bare (c.index + 1) r₀ [d] env (d.breakCycle env) := by
  have hStep := hMended.step hc
  have hHead : (∃ c', d.resolved = some c' ∧ r₀.HeadsCycle c') ↔
      env.types.inheritsFromItself c = true := by
    rw [inheritsFromItself_iff, hMended.onCycle_iff, hResolved]
    exact ⟨fun ⟨_, hEq, h⟩ => Option.some.inj hEq ▸ h, fun h => ⟨c, rfl, h⟩⟩
  rw [breakCycle_apply hResolved]
  by_cases hOn : env.types.inheritsFromItself c = true
  · rw [if_pos hOn] at hStep ⊢
    have hObject : object.index < env.types.classes.length := Nat.lt_of_le_of_lt (Nat.zero_le _) hc
    refine ⟨hLinking.setParent hBelow hc hObject, hStep, rfl, rfl, rfl, ?_⟩
    simp [cycleReports, hHead.mpr hOn]
  · rw [if_neg hOn] at hStep ⊢
    refine ⟨hLinking, hStep, rfl, rfl, rfl, ?_⟩
    rw [← hHead] at hOn
    simp [cycleReports, hOn]

theorem CyclesBroken.bind {bound bound' : Nat} {ds ds' : List ClassDecl} {x y : Analysis Unit}
    (h : CyclesBroken bare bound r₀ ds env (x env))
    (h' : CyclesBroken bare bound' r₀ ds' (x env).value.2 (y (x env).value.2)) :
    CyclesBroken bare bound' r₀ (ds ++ ds') env ((x >>= fun _ => y) env) where
  linking := h'.linking
  mended := h'.mended
  methods := h'.methods.trans h.methods
  globals := h'.globals.trans h.globals
  position := h'.position.trans h.position
  log := by rw [log_bind, h.log, h'.log, cycleReports, cycleReports, cycleReports, filterMap_append]

/-- When all classes up to a number were looked at, no cycle is left among them. This is the invariant of the
pass over all classes. -/
theorem forM_breakCycle_numbered {start : Nat} (hStart : 0 < start) (hLength : start + ds.length ≤ bare.length)
    (hLinking : Linking bare env) (hMended : MendedBelow start r₀ env.types) :
    CyclesBroken bare (start + ds.length) r₀
      (numbered start ds) env ((numbered start ds).forM breakCycle env) := by
  induction ds generalizing env start with
  | nil => exact ⟨hLinking, hMended, rfl, rfl, rfl, rfl⟩
  | cons d ds ih =>
    rw [length_cons] at hLength ⊢
    have hNumbered : numbered start (d :: ds) =
        { d with resolved := some ⟨start⟩ } :: numbered (start + 1) ds := by
      simp [numbered, mapIdx_cons, Nat.add_comm, Nat.add_left_comm]
    have hc : start < env.types.classes.length := by
      rw [← length_map ClassInfo.orphan, hLinking.classes]
      omega
    have hBelow : (⟨start⟩ : ClassId) ≠ object := by
      intro hEq
      exact absurd (congrArg ClassId.index hEq) (Nat.ne_of_gt hStart)
    have hFirst := cyclesBroken_breakCycle (d := { d with resolved := some ⟨start⟩ }) rfl hBelow hc
      hLinking hMended
    have hRoom : start + 1 + ds.length ≤ bare.length := by omega
    have hRest := ih (Nat.succ_pos start) hRoom hFirst.linking hFirst.mended
    rw [hNumbered, ← Nat.add_assoc, Nat.add_right_comm]
    exact hFirst.bind hRest

end ClassDecl

/-- The environment once the classes of any program are collected. In `linked` every class extends
what its declaration asks for, and cycles are not broken yet. -/
structure Gathered (ds : List ClassDecl) (linked env : Env) : Prop where
  registered : Registered (ClassDecl.firsts ds) linked
  linking : ClassDecl.Linking (bareClasses (ClassDecl.firsts ds)) env
  kept : linked.types.Acyclic → env = linked
  mended : MendedBelow env.types.classes.length linked.types env.types
  methods : env.types.methods = initial.methods
  globals : env.globals = {}
  position : env.position = {}

namespace Analysis

open ClassDecl

variable {ds : List ClassDecl}

/-- Registration and linking leave a registry in which all classes of different names are known and no class
extends itself, whatever is reported. -/
theorem exists_gathered (hFresh : ∀ d ∈ ds, d.resolved = none) : ∃ linked env : Env,
    Gathered ds linked env ∧ (collectClasses ds {}).value =
        ((registered ds, env.types.declarationOrder (registered ds)), env) ∧
      (collectClasses ds {}).log = (gaps ds).reduceOption.map redefinition ++
        ((firsts ds).flatMap linked.types.linkReports ++ cycleReports linked.types (registered ds)) := by
  have hRegister := mapM_register_start ds
  have hLinkAll : (registered ds).forM linkParent = (numbered 1 (firsts ds)).forM linkParent := by
    rw [forM_filter (fun d hd => by rw [linkParent, hd]), filter_registered hFresh]
  have hBreakAll : (registered ds).forM breakCycle = (numbered 1 (firsts ds)).forM breakCycle := by
    rw [forM_filter (fun d hd => by rw [breakCycle, hd]), filter_registered hFresh]
  have hReports : ∀ r, cycleReports r (registered ds) = cycleReports r (numbered 1 (firsts ds)) := by
    intro r
    rw [← filter_registered hFresh, cycleReports, cycleReports, filterMap_filter]
    refine filterMap_congr ?_
    intro d _
    cases d.resolved <;> simp
  have hLinked := linkedAs_numbered (nodup_names_firsts ds)
  generalize hLink : (numbered 1 (firsts ds)).forM linkParent { types := bareRegistry (firsts ds) } =
    linked at hLinked
  have hRegistered := hLinked.registered
  have hLinks : linked.log = (firsts ds).flatMap linked.value.2.types.linkReports := by
    rw [hLinked.log, numbered_eq hRegistered, flatMap_map]
    exact flatMap_congr fun d _ => (linkReports_of_table hLinked.byName d).symm
  have hLength : 1 + (firsts ds).length ≤ (bareClasses (firsts ds)).length := by
    simp [bareClasses, initial, Nat.add_comm]
  have hBroken := forM_breakCycle_numbered (Nat.one_pos) hLength hLinked.linking
    (.start hLinked.linking.root_parent (Nat.le_refl _))
  generalize hBreak : (numbered 1 (firsts ds)).forM breakCycle linked.value.2 = broken at hBroken
  refine ⟨linked.value.2, broken.value.2, ⟨hRegistered, hBroken.linking, ?_, ?_, ?_, ?_, ?_⟩, ?_, ?_⟩
  · intro hAcyclic
    rw [← hBreak, forM_breakCycle _ hAcyclic]
  · rw [hBroken.linking.length, Nat.add_comm]
    exact hBroken.mended
  · exact hBroken.methods.trans hRegistered.methods
  · exact hBroken.globals.trans hRegistered.globals
  · exact hBroken.position.trans hRegistered.position
  · simp only [collectClasses, value_bind, hRegister, hLinkAll, hLink, hBreakAll, hBreak, get_apply,
      pure_apply]
  · simp only [collectClasses, log_bind, hRegister, hLinkAll, hLink, hBreakAll, hBreak,
      get_apply, pure_apply, hLinks, hBroken.log, hReports, append_nil]

end Analysis

namespace ClassDecl

variable {ds : List ClassDecl} {d : ClassDecl} {i : Nat} {env : Env}

section

variable (hNames : env.types.classes.map ClassInfo.name = objectName :: (firsts ds).map ClassDecl.name)

include hNames

theorem Registers.name_place (h : Registers ds i d) :
    (place ds i).index < env.types.classes.length ∧ (env.types.classInfo (place ds i)).name = d.name := by
  have hAt := congrArg (·[(place ds i).index]?) hNames
  simp only [place, List.getElem?_cons_succ, List.getElem?_map, h.getElem?_firsts, Option.map_some] at hAt
  obtain ⟨info, hInfo, hName⟩ := Option.map_eq_some_iff.mp hAt
  refine ⟨(List.getElem?_eq_some_iff.mp hInfo).1, ?_⟩
  rw [classInfo, place, hInfo]
  exact hName

/-- The declared classes have the numbers of their declarations. -/
theorem Registers.lookupClass (hFound : env.types.FoundByName) (h : Registers ds i d) :
    env.types.lookupClass d.name = some (place ds i) :=
  (hFound _ _).mpr (h.name_place hNames)

/-- Every class but the root was registered by a declaration of the program. -/
theorem exists_registers_of_class (hc : c.index < env.types.classes.length) (hBelow : c ≠ object) :
    ∃ i d, Registers ds i d ∧ place ds i = c := by
  obtain ⟨k, hk⟩ := exists_index hBelow
  have hLength := congrArg List.length hNames
  rw [length_map, length_cons, length_map] at hLength
  have hLt : k < (firsts ds).length := by omega
  obtain ⟨i, hi, hPlace⟩ := exists_registers (List.getElem?_eq_getElem hLt)
  refine ⟨i, _, hi, hPlace.trans ?_⟩
  cases c
  exact congrArg ClassId.mk hk.symm

end

end ClassDecl

namespace Gathered

open ClassDecl

variable {ds : List ClassDecl} {linked env : Env} (h : Gathered ds linked env)

include h

theorem names : env.types.classes.map ClassInfo.name = objectName :: (firsts ds).map ClassDecl.name :=
  h.linking.classNames

/-- Once cycles are broken, all classes have found their place. -/
theorem lineal : env.types.Lineal where
  found := h.linking.found
  rooted := h.linking.length ▸ Nat.succ_pos _
  root_parent := h.linking.root_parent
  parent_lt := h.linking.parent_lt
  exists_parent := by
    intro c hc hBelow
    by_cases hHead : linked.types.HeadsCycle c
    · exact ⟨object, h.mended.heads c hc hHead⟩
    · have hLinked : c.index < linked.types.classes.length := by
        rw [h.registered.length, ← h.linking.length]
        exact hc
      obtain ⟨d, -, -, hInfo⟩ := h.registered.exists_declaration hLinked hBelow
      refine ⟨linked.types.parentOf d, ?_⟩
      rw [h.mended.others c fun hBoth => hHead hBoth.2, Registry.parent, hInfo]
  acyclic := h.mended.acyclic (Nat.le_refl _)

end Gathered

/-! The order in which classes are treated. -/

namespace Registry

variable {r : Registry} {ds : List ClassDecl}

/-- Exactly the registered declarations have a turn in the passes that follow. Those of a name that was taken
have none. -/
theorem mem_declarationOrder_iff :
    i ∈ r.declarationOrder ds ↔ ∃ d c, ds[i]? = some d ∧ d.resolved = some c := by
  simp only [declarationOrder, mem_flatMap, mem_range, mem_filter, beq_iff_eq,
    List.getElem?_map, Option.map_eq_some_iff, depth?]
  constructor
  · rintro ⟨depth, -, -, d, hd, c, hc, -⟩
    exact ⟨d, c, hd, hc⟩
  · rintro ⟨d, c, hd, hc⟩
    have hDepth := length_chain_le r c
    exact ⟨(r.chain c).length, by omega, (List.getElem?_eq_some_iff.mp hd).1, d, hd, c, hc, rfl⟩

theorem mem_declarationOrder (hResolved : ∀ d ∈ ds, ∃ c, d.resolved = some c) :
    ∀ i < ds.length, i ∈ r.declarationOrder ds := by
  intro i hi
  obtain ⟨c, hc⟩ := hResolved _ (getElem_mem hi)
  exact mem_declarationOrder_iff.mpr ⟨_, c, List.getElem?_eq_getElem hi, hc⟩

/-- Classes with shorter lines come first. -/
theorem pairwise_declarationOrder (r : Registry) (ds : List ClassDecl) :
    (r.declarationOrder ds).Pairwise fun i j => ∀ d d' c c', ds[i]? = some d → ds[j]? = some d' →
      d.resolved = some c → d'.resolved = some c' → (r.chain c).length ≤ (r.chain c').length := by
  have hDepth : ∀ {depth i}, i ∈ (List.range ds.length).filter
      (fun i => (ds.map r.depth?)[i]? == some (some depth)) → ∀ d c, ds[i]? = some d →
        d.resolved = some c → (r.chain c).length = depth := by
    intro depth i hi d c hd hc
    have hAt := (mem_filter.mp hi).2
    simpa [hd, depth?, hc] using hAt
  rw [declarationOrder, pairwise_flatMap]
  constructor
  · intro depth _
    refine List.Pairwise.imp_of_mem (R := fun _ _ => True) ?_ (pairwise_of_forall fun _ _ => trivial)
    intro i j hi hj _ d d' c c' hd hd' hc hc'
    rw [hDepth hi d c hd hc, hDepth hj d' c' hd' hc']
  · refine pairwise_lt_range.imp ?_
    intro depth depth' hLt i hi j hj d d' c c' hd hd' hc hc'
    rw [hDepth hi d c hd hc, hDepth hj d' c' hd' hc']
    exact Nat.le_of_lt hLt

/-- Parents come before their subclasses. -/
theorem idxOf_lt_of_parent (hAcyclic : r.Acyclic) {p : ClassId} (hd : ds[i]? = some d) (hd' : ds[j]? = some d')
    (hc : d.resolved = some c) (hp : d'.resolved = some p) (hParent : r.parent c = some p) :
    (r.declarationOrder ds).idxOf j < (r.declarationOrder ds).idxOf i := by
  have hi := idxOf_lt_length_of_mem (mem_declarationOrder_iff (r := r).mpr ⟨d, c, hd, hc⟩)
  have hj := idxOf_lt_length_of_mem (mem_declarationOrder_iff (r := r).mpr ⟨d', p, hd', hp⟩)
  have hLonger : (r.chain p).length < (r.chain c).length := by
    rw [hAcyclic.chain_of_parent hParent, length_cons]
    exact Nat.lt_succ_self _
  rcases Nat.lt_trichotomy ((r.declarationOrder ds).idxOf j) ((r.declarationOrder ds).idxOf i) with
    hLt | hEq | hGt
  · exact hLt
  · have hSame : j = i := by
      rw [← getElem_idxOf hi, ← getElem_idxOf hj]
      simp only [hEq]
    rw [hSame, hd, Option.some.injEq] at hd'
    rw [hd', hp, Option.some.injEq] at hc
    rw [hc] at hLonger
    exact absurd hLonger (Nat.lt_irrefl _)
  · have hSorted := pairwise_iff_getElem.mp (r.pairwise_declarationOrder ds) _ _ hi hj hGt
    rw [getElem_idxOf, getElem_idxOf] at hSorted
    exact absurd (hSorted d d' c p hd hd' hc hp) (Nat.not_le.mpr hLonger)

end Registry

/-- The classes that are due are those that were registered. -/
theorem ClassDecl.mem_order_iff {ds : List ClassDecl} {r : Registry} (hFresh : ∀ d ∈ ds, d.resolved = none)
    {i : Nat} :
    i ∈ r.declarationOrder (registered ds) ↔ ∃ d, Registers ds i d := by
  rw [mem_declarationOrder_iff]
  constructor
  · rintro ⟨d, c, hd, hc⟩
    obtain ⟨d, hd, -⟩ := (resolved_registered_iff hFresh).mp ⟨d, hd, hc⟩
    exact ⟨d, hd⟩
  · rintro ⟨d, hd⟩
    exact ⟨_, _, getElem?_registered hd, rfl⟩

end TLang
