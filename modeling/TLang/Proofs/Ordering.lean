import TLang.Proofs.Consistency
import TLang.Proofs.CycleRepair
import TLang.Proofs.Renumbering.Programs

/-! The order of classes does not matter. A program whose classes are declared in another order is
analyzed to the same program, with the same reports in another order. Only the numbers of classes and
methods depend on the order of declaration. -/
namespace TLang

open Registry Analysis List

variable {ρ : Renumbering} {ds ds' : List ClassDecl} {p q : Program}

/-! Registration in another order. -/

/-- The entries of a list can be found in a list with the same entries in another order. -/
theorem exists_places {l l' : List String} (hNodup : l.Nodup) (hPerm : l'.Perm l) :
    ∃ g : Nat → Nat, Function.Injective g ∧ ∀ i : Nat, l'[g i]? = l[i]? := by
  have hPlaces : l'.map (l'.idxOf ·) = List.range' 0 l.length := by
    apply ext_getElem
    · rw [length_map, length_range', hPerm.length_eq]
    · intro i hi hi'
      rw [getElem_map, getElem_range', (hPerm.nodup_iff.mpr hNodup).idxOf_getElem]
      omega
  have hKs : (l.map (l'.idxOf ·)).Perm (List.range' 0 l.length) := hPlaces ▸ (hPerm.symm.map _)
  obtain ⟨g, hInjective, hMap, hOut⟩ := exists_exchange Function.injective_id nodup_range'
    (hKs.nodup_iff.mpr nodup_range') hKs.length_eq fun k => mt hKs.mem_iff.mp
  refine ⟨g, hInjective, fun i => ?_⟩
  by_cases hi : i < l.length
  · have hAt : g i = l'.idxOf l[i] := by
      have hEq := congrArg (·[i]?) hMap
      simpa [hi] using hEq
    have hMem : l[i] ∈ l' := hPerm.mem_iff.mpr (getElem_mem hi)
    rw [hAt, List.getElem?_eq_getElem hi, List.getElem?_eq_getElem (idxOf_lt_length_iff.mpr hMem),
      getElem_idxOf]
  · have hOutside : l.length ≤ i := Nat.le_of_not_lt hi
    rw [hOut i (by simpa using hi), id, List.getElem?_eq_none hOutside,
      List.getElem?_eq_none (hPerm.length_eq ▸ hOutside)]

/-- The root class has no number but those that are given at the start. -/
theorem Registry.renumber_initial (hRoot : ρ.cls object = object)
    (hFixed : ∀ m : MethodId, m.index < initial.methods.length → ρ.method m = m) :
    (initial.classInfo object).renumber ρ = initial.classInfo object ∧
      ∀ m, (initial.methodInfo m).renumber ρ = initial.methodInfo m := by
  have h0 := hFixed ⟨0⟩ (by decide)
  have h1 := hFixed ⟨1⟩ (by decide)
  have h2 := hFixed ⟨2⟩ (by decide)
  have hObject : ρ.cls ⟨0⟩ = ⟨0⟩ := hRoot
  constructor
  · simp [initial, classInfo, object, ClassInfo.renumber, SymbolTable.renumber, Bindings.renumber,
      Ty.renumber, h0, h1, h2]
  · rintro ⟨k⟩
    rcases k with _ | _ | _ | k
    all_goals simp [initial, methodInfo, object, MethodInfo.renumber, Bindings.renumber, Ty.renumber,
      SymbolTable.renumber, hObject]

/-- Registries with the same classes up to numbers are alike as long as no method is declared. -/
theorem Env.Alike.of_initial {env env' : Env} (hMethods : env.types.methods = initial.methods)
    (hMethods' : env'.types.methods = initial.methods) {π : ClassId → ClassId} (hInjective : Function.Injective π)
    (hRoot : π object = object) {g : Nat → Nat} (hg : Function.Injective g)
    (hRespects : ∀ n ≤ env.size, RespectsBound g n)
    (hLength : env'.types.classes.length = env.types.classes.length)
    (hLookup : ∀ name, env'.types.lookupClass name = (env.types.lookupClass name).map π)
    (hClasses : (initial.classInfo object).renumber (.ofNumbers π g) = initial.classInfo object →
      ∀ c, env'.types.classInfo (π c) = (env.types.classInfo c).renumber (.ofNumbers π g)) :
    env.Alike (.ofNumbers π g) env' := by
  have hSize : env.size = initial.methods.length := congrArg List.length hMethods
  have hFixed : ∀ m : MethodId, m.index < initial.methods.length →
      (Renumbering.ofNumbers π g).method m = m := by
    rintro ⟨k⟩ hk
    rw [← hSize] at hk
    exact congrArg MethodId.mk ((hRespects k (Nat.le_of_lt hk)).eq (hRespects (k + 1) hk))
  obtain ⟨hRootInfo, hInfos⟩ := renumber_initial (ρ := .ofNumbers π g) hRoot hFixed
  have hClassInfo := hClasses hRootInfo
  constructor
  case outline =>
    refine ⟨⟨fun hEq => hInjective hEq, ?_, hRoot⟩, hLength, hLookup, ?_, ?_⟩
    · rintro ⟨k⟩ ⟨k'⟩ hEq
      exact congrArg MethodId.mk (hg (MethodId.mk.inj hEq))
    · exact fun c => (congrArg ClassInfo.name (hClassInfo c) :)
    · exact fun c => (congrArg ClassInfo.parent (hClassInfo c) :)
  case classInfo => exact hClassInfo
  case infos =>
    intro m
    rw [methodInfo, methodInfo, hMethods, hMethods', ← methodInfo, ← methodInfo, hInfos]
    by_cases hm : m.index < initial.methods.length
    · rw [hFixed m hm]
    · have hm' := mt (hRespects _ (Nat.le_of_eq hSize.symm) m.index).mp hm
      rw [methodInfo_of_le (Nat.le_of_not_lt hm)]
      exact methodInfo_of_le (Nat.le_of_not_lt hm')
  case bounded =>
    rw [Env.size, hMethods', ← hMethods]
    exact fun m => hRespects _ (Nat.le_refl _) m.index

namespace Registered

variable {env env' : Env}

theorem perm_names (h : Registered ds env) (h' : Registered ds' env') (hPerm : ds'.Perm ds) :
    (env'.types.classes.map ClassInfo.name).Perm (env.types.classes.map ClassInfo.name) := by
  rw [h.names, h'.names]
  exact (hPerm.map _).cons _

/-- The second registration has other numbers for the same names. -/
theorem exists_classNumbers (h : Registered ds env) (h' : Registered ds' env') (hPerm : ds'.Perm ds) :
    ∃ π : ClassId → ClassId, Function.Injective π ∧ π object = object ∧
      (∀ name, env'.types.lookupClass name = (env.types.lookupClass name).map π) ∧
      ∀ c, (π c).index < env'.types.classes.length ↔ c.index < env.types.classes.length := by
  have hNames := h.perm_names h' hPerm
  obtain ⟨g, hInjective, hAt⟩ := exists_places h.found.nodup hNames
  have hBound : ∀ i, g i < env'.types.classes.length ↔ i < env.types.classes.length := by
    intro i
    have hNone : (env'.types.classes.map ClassInfo.name)[g i]? = none ↔
        (env.types.classes.map ClassInfo.name)[i]? = none := by rw [hAt i]
    rw [List.getElem?_eq_none_iff, List.getElem?_eq_none_iff, length_map, length_map] at hNone
    omega
  have hName : ∀ c : ClassId, (env'.types.classInfo ⟨g c.index⟩).name = (env.types.classInfo c).name := by
    intro c
    rw [name_eq_getElem?, hAt, ← name_eq_getElem?]
  have hLookup : ∀ c : ClassId, c.index < env.types.classes.length →
      env'.types.lookupClass (env.types.classInfo c).name = some ⟨g c.index⟩ := by
    intro c hc
    rw [← hName c]
    exact h'.found.lookupClass_name ((hBound _).mpr hc)
  refine ⟨fun c => ⟨g c.index⟩, ?_, ?_, ?_, fun c => hBound c.index⟩
  · rintro ⟨i⟩ ⟨j⟩ hEq
    exact congrArg ClassId.mk (hInjective (ClassId.mk.inj hEq))
  · have hZero : object.index < env.types.classes.length := by
      rw [h.length]
      exact Nat.succ_pos _
    have hZero' : object.index < env'.types.classes.length := by
      rw [h'.length]
      exact Nat.succ_pos _
    refine h'.found.eq_of_name ((hBound _).mpr hZero) hZero' ?_
    rw [hName, h.root, h'.root]
  · intro name
    cases hFound : env.types.lookupClass name with
    | some c =>
      obtain ⟨hc, rfl⟩ := (h.found _ _).mp hFound
      exact hLookup c hc
    | none =>
      cases hFound' : env'.types.lookupClass name with
      | none => rfl
      | some c' =>
        obtain ⟨hc', hName'⟩ := (h'.found _ _).mp hFound'
        have hMem := hNames.mem_iff.mp (mem_names_iff.mpr ⟨c', hc', hName'⟩)
        exact absurd hMem (h.found.lookupClass_eq_none_iff.mp hFound)

/-- Registered classes are the same up to numbers. -/
theorem alike (h : Registered ds env) (h' : Registered ds' env') (hPerm : ds'.Perm ds)
    {π : ClassId → ClassId} (hInjective : Function.Injective π) (hRoot : π object = object)
    (hLookup : ∀ name, env'.types.lookupClass name = (env.types.lookupClass name).map π)
    (hBound : ∀ c, (π c).index < env'.types.classes.length ↔ c.index < env.types.classes.length)
    {g : Nat → Nat} (hg : Function.Injective g) (hRespects : ∀ n ≤ env.size, RespectsBound g n) :
    env.Alike (.ofNumbers π g) env' := by
  have hParent : ∀ d, env'.types.parentOf d = π (env.types.parentOf d) := by
    intro d
    rw [parentOf, parentOf, hLookup]
    cases env.types.lookupClass (d.parent.getD objectName) with
    | none => exact hRoot.symm
    | some p => rfl
  have hLength : env'.types.classes.length = env.types.classes.length := by
    rw [h.length, h'.length, hPerm.length_eq]
  refine .of_initial h.methods h'.methods hInjective hRoot hg hRespects hLength hLookup fun hRootInfo c => ?_
  by_cases hObject : c = object
  · rw [hObject, hRoot, h.root, h'.root, hRootInfo]
  · by_cases hc : c.index < env.types.classes.length
    · obtain ⟨d, hd, hFound, hInfo⟩ := h.exists_declaration hc hObject
      obtain ⟨c', hFound', -, hInfo'⟩ := h'.declared d (hPerm.mem_iff.mpr hd)
      rw [hLookup, hFound, Option.map_some, Option.some.injEq] at hFound'
      rw [hFound', hInfo', hInfo, hParent]
      rfl
    · have hc' := mt (hBound c).mp hc
      rw [classInfo, classInfo, List.getElem?_eq_none (Nat.le_of_not_lt hc),
        List.getElem?_eq_none (Nat.le_of_not_lt hc')]
      rfl

end Registered

/-! Declarations in another order. -/

namespace Member

/-- A member that was just read has no numbers to exchange. -/
theorem renumber_of_isFresh (ρ : Renumbering) {member : Member} (h : member.isFresh = true) :
    member.renumber ρ = member := by
  cases member with
  | field d => rfl
  | method d =>
    simp only [isFresh, MethodDecl.isFresh, Bool.and_eq_true, Option.isNone_iff_eq_none] at h
    simp only [renumber, MethodDecl.renumber, Stmt.renumberAll_of_areFresh ρ h.2, h.1.1.2,
      Option.map_none]
    rw [← h.1.1.2]

end Member

namespace ClassDecl

theorem located_renumber {env env' : Env}
    (hLookup : ∀ name, env'.types.lookupClass name = (env.types.lookupClass name).map ρ.cls) {d : ClassDecl}
    (hFresh : d.isFresh = true) : (d.located env).renumber ρ = d.located env' := by
  simp only [isFresh, Bool.and_eq_true, all_eq_true] at hFresh
  have hMembers : d.members.map (Member.renumber ρ) = d.members.map id :=
    map_congr_left fun member hMember => Member.renumber_of_isFresh ρ (hFresh.2 member hMember)
  rw [map_id] at hMembers
  simp only [renumber, located, hMembers, hLookup]

end ClassDecl

namespace Registered

open ClassDecl

variable {env : Env}

/-- After registration all declarations are placed, in whatever order the passes take them. -/
theorem placed (h : Registered ds env) {as : List ClassDecl} (hPerm : as.Perm (ds.map (located env))) :
    Placed as env := by
  have hFound : ∀ d ∈ ds, ∃ c, env.types.lookupClass d.name = some c ∧
      c.index < env.types.classes.length ∧ (env.types.classInfo c).name = d.name := by
    intro d hd
    obtain ⟨c, hc, -⟩ := h.declared d hd
    exact ⟨c, hc, (h.found _ _).mp hc⟩
  constructor
  case known =>
    intro a ha
    obtain ⟨d, hd, rfl⟩ := mem_map.mp (hPerm.mem_iff.mp ha)
    obtain ⟨c, hc, hBound, -⟩ := hFound d hd
    exact ⟨c, hc, hBound⟩
  case distinct =>
    have hNames : (ds.map ClassDecl.name).Nodup := (nodup_cons.mp (h.names ▸ h.found.nodup)).2
    rw [(hPerm.map resolved).nodup_iff, map_map]
    refine List.Nodup.map_on ?_ hNames.of_map
    intro d hd d' hd' hEq
    obtain ⟨c, hc, -, hName⟩ := hFound d hd
    obtain ⟨c', hc', -, hName'⟩ := hFound d' hd'
    have hSame : some c = some c' := hc.symm.trans (Eq.trans hEq hc')
    rw [Option.some.injEq] at hSame
    exact inj_on_of_nodup_map hNames hd hd' (hName.symm.trans (hSame ▸ hName'))

theorem covers (h : Registered ds env) : ∀ i < (ds.map (located env)).length,
    i ∈ env.types.declarationOrder (ds.map (located env)) := by
  refine mem_declarationOrder fun a ha => ?_
  obtain ⟨d, hd, rfl⟩ := mem_map.mp ha
  obtain ⟨c, hc, -⟩ := h.declared d hd
  exact ⟨c, hc⟩

end Registered

/-! Programs in another order. -/

namespace ClassDecl

/-- One class names another one as its parent. -/
def ExtendsIn (ds : List ClassDecl) (sub super : String) : Prop :=
  ∃ d ∈ ds, d.name = sub ∧ d.parent = some super

theorem Above.ne_object {sub super : String} (h : Above ds sub super) : sub ≠ objectName := by
  rintro rfl
  obtain ⟨_, hParent, -⟩ := Relation.TransGen.head'_iff.mp h
  cases hParent

/-- Declared parents are named, but for the root. -/
theorem extendsIn_of_declaredParent {sub super : String} (hParent : declaredParent ds sub = some super)
    (hBelow : super ≠ objectName) : ExtendsIn ds sub super := by
  rw [declaredParent] at hParent
  split at hParent
  · cases hParent
  · obtain ⟨d, hd, rfl⟩ := Option.map_eq_some_iff.mp hParent
    refine ⟨d, mem_of_find?_eq_some hd, by simpa using List.find?_some hd, ?_⟩
    simp only [parentName] at hBelow ⊢
    split at hBelow
    · rename_i hKnown
      rw [if_pos hKnown]
      cases hNamed : d.parent with
      | none => exact absurd (by rw [hNamed]; rfl) hBelow
      | some name => rfl
    · exact absurd rfl hBelow

theorem Above.extendsIn {sub super : String} (h : Above ds sub super) (hBelow : super ≠ objectName) :
    Relation.TransGen (ExtendsIn ds) sub super := by
  induction h using Relation.TransGen.head_induction_on with
  | single hParent => exact .single (extendsIn_of_declaredParent hParent hBelow)
  | head hParent hRest ih => exact .head (extendsIn_of_declaredParent hParent (Above.ne_object hRest)) ih

end ClassDecl

namespace Program

open ClassDecl

/-- What order of classes does not matter for: the names are distinct and none of them is that of the
root, and no class extends itself by way of the parents that are named. -/
structure WellOrdered (ds : List ClassDecl) : Prop where
  names : (ds.map ClassDecl.name).Nodup
  object : ∀ d ∈ ds, d.name ≠ objectName
  acyclic : ∀ name, ¬ Relation.TransGen (ExtendsIn ds) name name

theorem WellOrdered.of_perm (h : WellOrdered ds) (hPerm : ds'.Perm ds) : WellOrdered ds' where
  names := (hPerm.map _).nodup_iff.mpr h.names
  object := fun d hd => h.object d (hPerm.mem_iff.mp hd)
  acyclic := by
    have hSame : ExtendsIn ds' = ExtendsIn ds := by
      funext sub super
      simp only [ExtendsIn, hPerm.mem_iff]
    rw [hSame]
    exact h.acyclic

/-- Classes whose parents have smaller ranks do not extend themselves. -/
theorem acyclic_of_rank (rank : String → Nat) (h : ∀ d ∈ ds, ∀ super ∈ d.parent, rank super < rank d.name)
    (name : String) : ¬ Relation.TransGen (ExtendsIn ds) name name := by
  have hLess : ∀ {a b}, Relation.TransGen (ExtendsIn ds) a b → rank b < rank a := by
    intro a b hPath
    induction hPath with
    | single hStep =>
      obtain ⟨d, hd, rfl, hParent⟩ := hStep
      exact h d hd _ hParent
    | tail _ hStep ih =>
      obtain ⟨d, hd, rfl, hParent⟩ := hStep
      exact Nat.lt_trans (h d hd _ hParent) ih
  exact fun hCycle => Nat.lt_irrefl _ (hLess hCycle)

/-- All declarations have a turn when classes are settled. -/
theorem SettledInOrder.perm_due {order : List Nat} {start : Env} {x : Checked (List ClassDecl × Env)}
    (h : SettledInOrder order ds start x) (hNodup : order.Nodup) (hCovers : ∀ i < ds.length, i ∈ order) :
    (Analysis.due order x.value.1).Perm x.value.1 := by
  refine Analysis.perm_due hNodup fun i hi => ?_
  by_contra hNot
  have hOther := h.others i hNot
  rw [List.getElem?_eq_none (Nat.le_of_not_lt fun hLt => hNot (hCovers i hLt)),
    List.getElem?_eq_none_iff] at hOther
  exact Nat.not_lt.mpr hOther hi

/-- The classes of a program are declared from where they are registered, in some order. -/
structure DeclaredFrom (ds : List ClassDecl) (start : Env) (as : List ClassDecl) : Prop where
  registered : Registered ds start
  perm : as.Perm (ds.map (located start))
  classes : (declareClasses ds {}).value.1.Perm (settle as start).value.1
  env : (declareClasses ds {}).value.2 = (settle as start).value.2
  log : (declareClasses ds {}).log = ds.flatMap start.types.linkReports ++ (settle as start).log

/-- If no class extends itself by way of the parents that are named, then no link is cut. -/
theorem WellOrdered.exists_collectClasses (h : WellOrdered ds) (hFresh : ∀ d ∈ ds, d.resolved = none) :
    ∃ env : Env, Registered ds env ∧ collectClasses ds {} =
      ⟨((ds.map (located env), env.types.declarationOrder (ds.map (located env))), env),
        ds.flatMap env.types.linkReports⟩ := by
  have hGaps := gaps_of_nodup (nodup_cons.mpr ⟨fun hMem => ?_, h.names⟩)
  · obtain ⟨hFirsts, hNumbered⟩ := registered_of_gaps hGaps
    obtain ⟨linked, env, hGathered, hValue, hLog⟩ := exists_gathered hFresh
    have hRegistered := hGathered.registered
    have hAcyclic : linked.types.Acyclic := by
      intro c p hParent hReaches
      have hc := lt_of_parent hParent
      have hOn := onCycle_iff_transGen.mp ⟨p, hParent, hReaches⟩
      have hAbove := (above_iff hRegistered hc hc).mpr hOn
      exact h.acyclic _ (hAbove.extendsIn hAbove.ne_object)
    obtain rfl := hGathered.kept hAcyclic
    rw [hFirsts] at hRegistered
    rw [hNumbered, numbered_eq hRegistered] at hValue hLog
    refine ⟨env, hRegistered, Logged.ext hValue (hLog.trans ?_)⟩
    rw [hGaps, hFirsts, map_nil, nil_append, cycleReports_of_acyclic hAcyclic, append_nil]
  · obtain ⟨d, hd, hEq⟩ := mem_map.mp hMem
    exact h.object d hd hEq

/-- Registration and linking give every well ordered class its number, and declaring them is a series of passes
from there. -/
theorem WellOrdered.exists_declaredFrom (h : WellOrdered ds) (hFresh : ∀ d ∈ ds, d.resolved = none) :
    ∃ start as, DeclaredFrom ds start as := by
  obtain ⟨start, hRegistered, hCollect⟩ := h.exists_collectClasses hFresh
  have hNodup := nodup_declarationOrder start.types (ds.map (located start))
  have hCovers := hRegistered.covers
  generalize start.types.declarationOrder (ds.map (located start)) = order at hNodup hCovers hCollect
  obtain ⟨x, hSettled, hDeclare⟩ := exists_settledInOrder (by rw [hCollect]) hNodup
  refine ⟨start, Analysis.due order (ds.map (located start)), hRegistered,
    Analysis.perm_due hNodup hCovers, ?_, ?_, ?_⟩
  · rw [hDeclare, ← hSettled.due]
    exact (hSettled.perm_due hNodup hCovers).symm
  · rw [hDeclare, hSettled.env]
  · rw [hDeclare, hSettled.log, hCollect]

/-- The classes of a program are settled alike in another order. -/
theorem exists_settledAlike (hFresh : ∀ d ∈ ds, d.isFresh = true) (hOrder : WellOrdered ds)
    (hPerm : ds'.Perm ds) : ∃ ρ, SettledAlike ρ (declareClasses ds {}) (declareClasses ds' {}) := by
  have hUnresolved : ∀ d ∈ ds, d.resolved = none := by
    intro d hd
    have hClass := hFresh d hd
    simp only [ClassDecl.isFresh, Bool.and_eq_true, Option.isNone_iff_eq_none] at hClass
    exact hClass.1
  obtain ⟨start, as, h⟩ := hOrder.exists_declaredFrom hUnresolved
  obtain ⟨start', as', h'⟩ := (hOrder.of_perm hPerm).exists_declaredFrom
    fun d hd => hUnresolved d (hPerm.mem_iff.mp hd)
  obtain ⟨π, hInjective, hRoot, hLookup, hBound⟩ :=
    h.registered.exists_classNumbers h'.registered hPerm
  have hAs : ∀ g : Nat → Nat, as'.Perm (as.map (ClassDecl.renumber (.ofNumbers π g))) := by
    intro g
    have hSame : (ds.map (located start)).map (ClassDecl.renumber (.ofNumbers π g)) = ds.map (located start') := by
      rw [map_map]
      exact map_congr_left fun d hd =>
        located_renumber (ρ := .ofNumbers π g) hLookup (hFresh d hd)
    refine h'.perm.trans ((hPerm.map _).trans ?_)
    rw [← hSame]
    exact (h.perm.map _).symm
  have hSize : start'.size = start.size := by rw [Env.size, h'.registered.methods, Env.size, h.registered.methods]
  obtain ⟨g, hAlike⟩ := TLang.exists_settledAlike (h.registered.placed h.perm)
    (h'.registered.placed h'.perm) hSize hAs fun g hg hRespects =>
      h.registered.alike h'.registered hPerm hInjective hRoot hLookup hBound hg hRespects
  have hReports : ∀ d, start'.types.linkReports d = start.types.linkReports d := by
    intro d
    simp only [linkReports, hLookup, Option.map_eq_none_iff]
  refine ⟨.ofNumbers π g, ?_, ?_, ?_, ?_⟩
  · exact h'.classes.trans (hAlike.classes.trans (h.classes.map _).symm)
  · rw [h.log, h'.log, funext hReports]
    exact (hPerm.flatMap_right _).append hAlike.log
  · rw [h.env, h'.env]
    exact hAlike.alike
  · rw [h.env, h'.env, hAlike.size]

/-- Two programs as they are read, whose classes come in different orders. -/
structure Reorders (p q : Program) : Prop where
  classes : q.classes.Perm p.classes
  main : q.main = p.main

theorem Reorders.isFresh (h : Reorders p q) (hFresh : p.isFresh = true) : q.isFresh = true := by
  rw [Program.isFresh, Bool.and_eq_true, all_eq_true] at hFresh ⊢
  exact ⟨fun d hd => hFresh.1 d (h.classes.mem_iff.mp hd), h.main ▸ hFresh.2⟩

theorem typable (p : Program) (hFresh : p.isFresh = true) :
    Typable ⟨(declareClasses p.classes {}).value.1, p.main⟩ (declareClasses p.classes {}).value.2 := by
  have hEstablished := established_declareClasses fun d hd => resolved_of_isFresh hFresh hd
  exact ⟨hEstablished.apart.nodup, hEstablished.position, hEstablished.apart.bounded⟩

/-- Both orders are typed alike. The numbers of classes follow the text, and those of methods are found from the
passes. -/
theorem exists_typedAlike (h : Reorders p q) (hFresh : p.isFresh = true) (hOrder : WellOrdered p.classes) :
    ∃ ρ, TypedAlike ρ (p.analyze {}) (q.analyze {}) := by
  have hFresh' := h.isFresh hFresh
  have hParts := hFresh
  rw [Program.isFresh, Bool.and_eq_true, all_eq_true] at hParts
  obtain ⟨ρ, hAlike⟩ := exists_settledAlike hParts.1 hOrder h.classes
  have hEstablished := established_declareClasses fun d hd => resolved_of_isFresh hFresh hd
  have hEstablished' := established_declareClasses fun d hd => resolved_of_isFresh hFresh' hd
  have hSame : SameUpTo ρ ⟨(declareClasses p.classes {}).value.1, p.main⟩
      ⟨(declareClasses q.classes {}).value.1, q.main⟩ := by
    refine ⟨hAlike.classes, ?_⟩
    rw [MainBlock.renumber, Stmt.renumberAll_of_areFresh ρ hParts.2, h.main]
  have hTyped := TypedApart.alike (typable p hFresh) hEstablished'.position hAlike.alike
    (by rw [hEstablished.globals, hEstablished'.globals]; rfl) hSame (typedApart hFresh)
    (typedApart hFresh')
  refine ⟨ρ, ?_⟩
  constructor
  all_goals simp only [analyze, value_bind, log_bind]
  case classes => exact hTyped.classes
  case main => exact hTyped.main
  case log => exact hAlike.log.append hTyped.log
  case alike => exact hTyped.alike
  case globals => exact hTyped.globals

/-- What two programs have in common that are analyzed to the same but for numbers and for the order of
classes. A class and its methods are matched by `ρ`, which keeps names. -/
structure AnalyzedAlike (ρ : Renumbering) (p q : Program) : Prop where
  faithful : ρ.Faithful
  diagnostics : q.diagnostics.Perm p.diagnostics
  aborted : q.diagnostics.any Diagnostic.isTerminal = p.diagnostics.any Diagnostic.isTerminal
  lookup : ∀ name, q.env.types.lookupClass name = (p.env.types.lookupClass name).map ρ.cls
  /-- In particular parents, own fields, the types of all members and lists of methods. -/
  classInfo : ∀ c, q.env.types.classInfo (ρ.cls c) = (p.env.types.classInfo c).renumber ρ
  /-- In particular the tables of variables. -/
  methodInfo : ∀ m, q.env.types.methodInfo (ρ.method m) = (p.env.types.methodInfo m).renumber ρ
  offsets : ∀ c name, q.env.types.fieldOffset (ρ.cls c) name = p.env.types.fieldOffset c name
  signatures : ∀ c, q.env.types.signatures (q.env.types.classInfo (ρ.cls c)).methods =
    p.env.types.signatures (p.env.types.classInfo c).methods
  tables : ∀ c, (q.env.types.classInfo (ρ.cls c)).vmt.map (fun m => (q.env.types.methodInfo m).label) =
    (p.env.types.classInfo c).vmt.map fun m => (p.env.types.methodInfo m).label
  globals : q.env.globals = p.env.globals.renumber ρ
  classes : q.analyzed.classes.Perm (p.analyzed.classes.map (ClassDecl.renumber ρ))
  main : q.analyzed.main = p.analyzed.main.renumber ρ

/-- Classes may be declared in any order: the same is reported and declared, up to the order of reports and to
numbers. Cycles and names that are taken are left out, since there the first declaration is the one that
counts. -/
theorem analysis_in_any_order (p q : Program) (hFresh : p.isFresh = true) (hOrder : WellOrdered p.classes)
    (hReorders : Reorders p q) : ∃ ρ, AnalyzedAlike ρ p q := by
  obtain ⟨ρ, h⟩ := exists_typedAlike hReorders hFresh hOrder
  have hTypes := h.alike.types
  refine ⟨ρ, ?_⟩
  constructor
  case faithful => exact hTypes.faithful
  all_goals simp only [diagnostics, env, analyzed]
  case diagnostics => exact h.log
  case aborted => exact h.log.any_eq
  case lookup => exact hTypes.lookup
  case classInfo => exact hTypes.classInfo
  case methodInfo => exact h.alike.infos
  case offsets => exact hTypes.fieldOffset
  case signatures =>
    intro c
    rw [hTypes.classInfo, Registry.signatures, ClassInfo.renumber, map_map]
    exact map_congr_left fun m _ => hTypes.routineSignature m
  case tables =>
    intro c
    rw [hTypes.classInfo, ClassInfo.renumber, map_map]
    exact map_congr_left fun m _ => hTypes.label m
  case globals => exact h.globals
  case classes => exact h.classes
  case main => exact h.main

/-- Classes that refer to each other and are declared before their parents, with an unknown parent, a
method that is declared twice and a variable that is not declared. -/
def scattered : Program where
  classes := [
    { line := 1, name := "Leaf", parent := some "Mid", members := [
      .field ⟨2, .named "Base", ["x", "y"], none⟩,
      .method { line := 3, name := "f", returns := some .int, params := [⟨3, .named "Mid", "m"⟩]
                body := [.declare 4 (.named "Base") ["t"], .expr 4 (.var 4 "u" none)] }] },
    { line := 5, name := "Lost", parent := some "No", members := [.field ⟨6, .named "Leaf", ["x"], none⟩] },
    { line := 7, name := "Mid", parent := some "Base", members := [
      .method { line := 8, name := "f", returns := some .int, params := [⟨8, .named "Mid", "m"⟩] },
      .method { line := 9, name := "f", returns := some .int, params := [⟨9, .named "Mid", "m"⟩] }] },
    { line := 10, name := "Base", members := [.field ⟨11, .named "Leaf", ["x"], none⟩] }]
  main := ⟨12, [.declare 13 (.named "Leaf") ["a"],
    .expr 14 (.assign 14 (.var 14 "a" none) (.new 14 "Leaf" [] none none))]⟩

theorem analysis_in_any_order_scattered : scattered.isFresh = true ∧ WellOrdered scattered.classes ∧
    ∃ ρ, AnalyzedAlike ρ scattered ⟨scattered.classes.reverse, scattered.main⟩ := by
  have hFresh : scattered.isFresh = true := by decide
  have hOrder : WellOrdered scattered.classes := by
    refine ⟨by decide, by decide, acyclic_of_rank (fun name =>
      if name = "Leaf" then 3 else if name = "Mid" then 2 else if name = "No" then 0 else 1) ?_⟩
    decide
  exact ⟨hFresh, hOrder, analysis_in_any_order scattered ⟨scattered.classes.reverse, scattered.main⟩ hFresh
    hOrder ⟨reverse_perm _, rfl⟩⟩

end Program

end TLang
