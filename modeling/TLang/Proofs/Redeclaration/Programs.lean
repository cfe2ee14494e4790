import TLang.Proofs.Headings
import TLang.Proofs.Ordering
import TLang.Proofs.Redeclaration.Passes

/-! The classes of a program are declared once more, as a first run left them. They are registered and
linked as before, so both runs settle them from the same start and in the same order. -/
namespace TLang

open Registry Analysis List

variable {ds rs : List ClassDecl} {order : List Nat} {ρ : Renumbering}

namespace ClassDecl

/-- What is looked at when classes are registered and linked. -/
def memberless (d : ClassDecl) : ClassDecl := { d with members := [] }

theorem memberless_declareMembers (d : ClassDecl) (env : Env) :
    (d.declareMembers env).value.1.memberless = d.memberless := by
  cases hResolved : d.resolved with
  | none => simp [declareMembers, hResolved]
  | some c => simp [declareMembers, hResolved, memberless]

theorem memberless_complete (d : ClassDecl) (env : Env) :
    (d.complete env).value.1.memberless = d.memberless := by
  cases hResolved : d.resolved with
  | none => simp [complete, hResolved]
  | some c =>
    obtain ⟨wanted, -, -, hComplete⟩ := exists_complete hResolved env
    rw [hComplete]
    rfl

theorem memberless_analyzeBodies (d : ClassDecl) (env : Env) :
    (d.analyzeBodies env).value.1.memberless = d.memberless := by
  cases hResolved : d.resolved with
  | none => simp [analyzeBodies, hResolved]
  | some c => simp [analyzeBodies, hResolved, memberless]

/-- The registered declarations of classes are found registered by a later run. -/
theorem numbered_of_memberless {start : Nat} (h : rs.map memberless = (numbered start ds).map memberless) :
    numbered start rs = rs ∧ rs.map ClassDecl.name = ds.map ClassDecl.name := by
  have hLength : rs.length = ds.length := by
    have hEq := congrArg List.length h
    simpa [numbered] using hEq
  have hAt : ∀ i (hi : i < rs.length) (hi' : i < ds.length),
      rs[i].memberless = { ds[i] with resolved := some ⟨start + i⟩ }.memberless := by
    intro i hi hi'
    have hEq := congrArg (·[i]?) h
    simpa [numbered, hi, hi'] using hEq
  constructor
  · refine ext_getElem (by simp [numbered]) fun i hi hi' => ?_
    have hResolved := congrArg ClassDecl.resolved (hAt i hi' (hLength ▸ hi'))
    have hNumber : rs[i].resolved = some ⟨start + i⟩ := hResolved
    simp [numbered, ← hNumber]
  · refine ext_getElem (by simpa using hLength) fun i hi hi' => ?_
    rw [length_map] at hi hi'
    rw [getElem_map, getElem_map]
    exact (congrArg ClassDecl.name (hAt i hi hi') :)

end ClassDecl

namespace Analysis

/-- Link registered classes and break the cycles. The result is the order in which to treat them. -/
def linkClasses (ds : List ClassDecl) : Analysis (List Nat) := do
  ds.forM ClassDecl.linkParent
  ds.forM ClassDecl.breakCycle
  let env ← get
  return env.types.declarationOrder ds

theorem collectClasses_eq (ds : List ClassDecl) : collectClasses ds = (do
    let ds ← ds.mapM ClassDecl.register
    let order ← linkClasses ds
    return (ds, order)) := by
  simp [collectClasses, linkClasses]

/-- Classes are linked by their names and parents. What members they have does not matter. -/
theorem linkClasses_memberless (ds : List ClassDecl) :
    linkClasses (ds.map ClassDecl.memberless) = linkClasses ds := by
  have hOrder : ∀ r : Registry, r.declarationOrder (ds.map ClassDecl.memberless) = r.declarationOrder ds := by
    intro r
    simp only [declarationOrder, map_map, length_map]
    rfl
  rw [linkClasses, forM_commute (g := ClassDecl.memberless) (f := ClassDecl.linkParent) fun _ => rfl,
    forM_commute (g := ClassDecl.memberless) (f := ClassDecl.breakCycle) fun _ => rfl]
  simp only [hOrder]
  rfl

/-- Classes are registered and linked as by the run that left them. -/
theorem collectClasses_again (hNames : (objectName :: ds.map ClassDecl.name).Nodup)
    (hSame : rs.map ClassDecl.memberless = (collectClasses ds {}).value.1.1.map ClassDecl.memberless) :
    (collectClasses ds {}).value.1.1 = ClassDecl.numbered 1 ds ∧
      collectClasses rs {} = ⟨((rs, (collectClasses ds {}).value.1.2), (collectClasses ds {}).value.2),
        (collectClasses ds {}).log⟩ := by
  have hRegister : ∀ es : List ClassDecl, es.map ClassDecl.name = ds.map ClassDecl.name →
      es.mapM ClassDecl.register {} = ⟨(ClassDecl.numbered 1 es, { types := bareRegistry ds }), []⟩ := by
    intro es hEs
    have hInfos := congrArg (List.map fun name => ({ name } : ClassInfo)) hEs
    rw [map_map, map_map] at hInfos
    have hBare : bareRegistry es = bareRegistry ds := by
      rw [bareRegistry, bareRegistry, hEs]
      exact congrArg (fun infos => Registry.mk (initial.classes ++ infos) _ _) hInfos
    rw [ClassDecl.mapM_register (hEs ▸ hNames), hBare]
  have hCollect : ∀ es : List ClassDecl, es.map ClassDecl.name = ds.map ClassDecl.name →
      collectClasses es {} =
        let linked := linkClasses (ClassDecl.numbered 1 es) { types := bareRegistry ds }
        ⟨((ClassDecl.numbered 1 es, linked.value.1), linked.value.2), linked.log⟩ := by
    intro es hEs
    rw [collectClasses_eq]
    apply Logged.ext <;> simp [hRegister es hEs]
  have hFirst : (collectClasses ds {}).value.1.1 = ClassDecl.numbered 1 ds := by rw [hCollect ds rfl]
  rw [hFirst] at hSame
  obtain ⟨hNumbered, hRest⟩ := ClassDecl.numbered_of_memberless hSame
  have hLink : linkClasses rs = linkClasses (ClassDecl.numbered 1 ds) := by
    rw [← linkClasses_memberless, hSame, linkClasses_memberless]
  refine ⟨hFirst, ?_⟩
  rw [hCollect rs hRest, hNumbered, hLink, hCollect ds rfl]

theorem due_map (order : List Nat) (f : ClassDecl → ClassDecl) (ds : List ClassDecl) :
    due order (ds.map f) = (due order ds).map f := by
  simp [due, map_filterMap]

/-- If all declarations are due, then they are known from those that are due. -/
theorem eq_of_due {ds' : List ClassDecl} (hLength : ds'.length = ds.length) (hCovers : ∀ i < ds.length, i ∈ order)
    (h : due order ds' = due order ds) : ds' = ds := by
  have hEach : ∀ i ∈ order, ds'[i]? = ds[i]? := by
    clear hCovers
    induction order with
    | nil => exact fun i hi => absurd hi not_mem_nil
    | cons k order ih =>
      rw [forall_mem_cons]
      by_cases hk : k < ds.length
      · have hAt := List.getElem?_eq_getElem hk
        have hAt' := List.getElem?_eq_getElem (hLength ▸ hk : k < ds'.length)
        rw [due, due, filterMap_cons_some hAt, filterMap_cons_some hAt', List.cons.injEq] at h
        exact ⟨by rw [hAt, hAt', h.1], ih h.2⟩
      · have hNone := List.getElem?_eq_none (Nat.le_of_not_lt hk)
        have hNone' := List.getElem?_eq_none (Nat.le_of_not_lt (hLength ▸ hk : ¬k < ds'.length))
        rw [due, due, filterMap_cons_none hNone, filterMap_cons_none hNone'] at h
        exact ⟨by rw [hNone, hNone'], ih h⟩
  refine ext_getElem? fun i => ?_
  by_cases hi : i < ds.length
  · exact hEach i (hCovers i hi)
  · rw [List.getElem?_eq_none (Nat.le_of_not_lt hi), List.getElem?_eq_none (Nat.le_of_not_lt (hLength ▸ hi))]

end Analysis

/-- A class in which nothing is declared has no numbers of methods. -/
theorem ClassInfo.renumber_of_orphan {info : ClassInfo} {name : String} (h : info.orphan = { name })
    (hρ : ρ.cls = id) : info.renumber ρ = info := by
  cases info
  simp only [orphan, ClassInfo.mk.injEq] at h
  simp [renumber, hρ, h, SymbolTable.renumber]

/-! What the classes of a program have. -/

/-- The class that a member is marked with. -/
def Member.owner? : Member → Option String
  | .field d => d.owner
  | .method d => d.owner

namespace ClassDecl

/-- All members are marked with the name of the class. -/
def Owned (d : ClassDecl) : Prop := ∀ member ∈ d.members, member.owner? = some d.name

theorem Owned.of_bodiless {d d' : ClassDecl} (hSame : d'.bodiless = d.bodiless) (h : d.Owned) : d'.Owned := by
  have hOwners : d'.members.map Member.owner? = d.members.map Member.owner? :=
    map_members_of_bodiless hSame fun member => by cases member <;> rfl
  have hName : d'.name = d.name := (congrArg ClassDecl.name hSame :)
  rw [Owned, ← forall_mem_map (P := (· = some d.name))] at h
  rw [Owned, ← forall_mem_map (P := (· = some d'.name)), hOwners, hName]
  exact h

theorem Owned.extend {d : ClassDecl} (h : d.Owned) (c : ClassId) (members : List Member) (env : Env) :
    (d.extend c members env).value.1.Owned := by
  rw [extend_apply]
  refine forall_mem_append.mpr ⟨h, fun member hMember => ?_⟩
  obtain ⟨original, -, m, rfl⟩ := Member.exists_of_mem_zipWith_stamped hMember
  cases original <;> rfl

variable {Γ : Env} {c : ClassId} {source d : ClassDecl}

theorem declaresConstructor_eq (d : ClassDecl) :
    d.declaresConstructor = (d.methodsOf .constructor).any fun e => !e.synthetic := by
  rw [declaresConstructor, methodsOf, any_filterMap]
  congr 1
  funext member
  cases member with
  | field f => rfl
  | method e => by_cases hKind : e.kind = .constructor <;> simp [Member.declaresConstructor, Member.methodOf?, hKind]

/-- Completing a class does not make it declare a constructor. -/
theorem Formed.declaresConstructor (h : Formed Γ c source d)
    (hFresh : ∀ e, .method e ∈ source.members → e.synthetic = false) :
    d.declaresConstructor = source.declaresConstructor := by
  rw [declaresConstructor_eq, declaresConstructor_eq, ← h.accepted.notes_eq, h.notes .constructor (by decide)]
  cases hMethods : source.methodsOf .constructor with
  | nil => rfl
  | cons e rest =>
    have he : e ∈ source.methodsOf .constructor := hMethods ▸ mem_cons_self
    simp [hFresh e (mem_methodsOf_iff.mp he).1]

/-- A class that is formed has all that it could be given. -/
theorem Formed.filled (h : Formed Γ c source d) {names : String → Prop} (hCoherent : Γ.types.CoherentAt names c) :
    d.Filled Γ c := by
  have hDeclares : (Γ.types.classInfo c).hasConstructor = d.notes .constructor := congrArg (·.2.1) h.entered.page
  constructor
  case name => exact h.entered.name
  case destructor =>
    have hSome : (Γ.types.classInfo c).destructor.toList ≠ [] := by
      rw [h.entered.destructor, ne_eq, h.accepted.accepted_eq_nil_iff]
      exact h.methodsOf_ne_nil (by decide)
    cases hDestructor : (Γ.types.classInfo c).destructor with
    | none => exact absurd (by rw [hDestructor]; rfl) hSome
    | some m => rfl
  case declares => rw [hDeclares, h.accepted.notes_eq, declaresConstructor_eq]
  case constructor =>
    intro hNone
    rw [declaresConstructor_eq, ← h.accepted.notes_eq, h.notes .constructor (by decide), Bool.not_eq_false',
      List.isEmpty_iff] at hNone
    obtain ⟨e, m, hMade, hParams, hm, hInfo⟩ := h.exists_made (by decide) hNone
    have he := mem_methodsOf_iff.mp (hMade ▸ mem_singleton_self e)
    have hMem : m ∈ (Γ.types.classInfo c).methods := by
      rw [h.entered.methods]
      exact mem_filterMap.mpr ⟨_, he.1, hm⟩
    have hRoutine := hCoherent.routine m hMem
    have hKind : (Γ.types.methodInfo m).kind = .constructor := by
      rw [(h.entered.records e he.1 m hm).2]
      exact he.2
    have hSignature : (Γ.types.methodInfo m).signature = (Γ.routineInfo c d.defaultConstructor).signature := by
      rw [hRoutine.signature, hRoutine.named hKind, hKind, hInfo, h.entered.name]
      rfl
    rw [← hSignature, hCoherent.table]
    exact mem_map.mpr ⟨_, mem_map_of_mem hMem, rfl⟩

/-- Tables do not count among what a class could be given. -/
theorem Filled.of_tabulates {env env' : Env} (h : d.Filled env' c) (hTables : Tabulates env.types env'.types) :
    d.Filled env c where
  name := (name_of_outline hTables.extension.outline c).symm.trans h.name
  destructor := (hTables.congr (·.destructor.isSome) (fun _ => rfl) c).symm.trans h.destructor
  declares := (hTables.congr ClassInfo.hasConstructor (fun _ => rfl) c).symm.trans h.declares
  constructor := by
    intro hNone
    have hTaken := h.constructor hNone
    rwa [Env.routineInfo_of_outline hTables.extension.outline, hTables.congr (·.members.methods) fun _ => rfl]
      at hTaken

theorem redeclarations_bodiless (d : ClassDecl) : d.bodiless.redeclarations = d.redeclarations := by
  have hSame : d.bodiless.bodiless = d.bodiless := by
    rw [bodiless, bodiless, map_map]
    congr 1
    exact map_congr_left fun member _ => by cases member <;> rfl
  rw [redeclarations, redeclarations, declaresConstructor_of_bodiless hSame]
  rfl

end ClassDecl

/-- The members of classes that are declared and completed are marked. -/
theorem Analysis.Rerun.owned {Γ mid final mid' : Env} {as bs ds' : List ClassDecl}
    (h : Rerun Γ mid final mid' as ds rs bs ds') : ∀ r ∈ rs, r.Owned := by
  intro r hr
  have hCompleted : rs = (ds.mapM ClassDecl.complete mid).value.1 := by rw [h.completed]
  have hDeclared : ds = (as.mapM ClassDecl.declareMembers Γ).value.1 := by rw [h.declared]
  obtain ⟨d, hd, e, rfl, -⟩ := exists_turn_of_mem_mapM (hCompleted ▸ hr)
  obtain ⟨c, hc, -⟩ := h.placed_declared.known d hd
  obtain ⟨a, ha, e', rfl, -⟩ := exists_turn_of_mem_mapM (hDeclared ▸ hd)
  rw [ClassDecl.resolved_declareMembers] at hc
  obtain ⟨wanted, -, -, hComplete⟩ := ClassDecl.exists_complete ((a.resolved_declareMembers e').trans hc) e
  rw [hComplete, ClassDecl.declareMembers_eq hc]
  have hNone : ClassDecl.Owned { a with members := [] } := fun _ hMember => absurd hMember not_mem_nil
  exact (hNone.extend c _ e').extend c wanted _

namespace Program

variable {p : Program}

/-- Settling the classes does not change which of them declare no constructor. -/
theorem map_redeclarations_settledClasses (hFresh : p.isFresh = true)
    (hQuiet : Quiet (declareClasses p.classes {}).log) :
    p.settledClasses.map ClassDecl.redeclarations = p.classes.map ClassDecl.redeclarations := by
  have hFormed := formed_of_quiet hFresh hQuiet
  have hCompletes := completes_declareClasses p.classes {}
  rw [← settledClasses] at hCompletes
  refine ext_getElem (by rw [length_map, length_map, hFormed.length_eq]) fun i hi hi' => ?_
  rw [length_map] at hi hi'
  obtain ⟨c, hClass⟩ := (forall₂_iff_get.mp hFormed).2 i hi' hi
  obtain ⟨added, hErase, -⟩ := ((forall₂_iff_get.mp hCompletes).2 i hi' hi).erase
  have hLine : p.settledClasses[i].line = p.classes[i].line := (congrArg ClassDecl.line hErase :)
  have hName : p.settledClasses[i].name = p.classes[i].name := hClass.name
  have hDeclares : p.settledClasses[i].declaresConstructor = p.classes[i].declaresConstructor :=
    hClass.declaresConstructor fun e he => synthetic_of_isFresh hFresh (getElem_mem hi') he
  rw [getElem_map, getElem_map, ClassDecl.redeclarations, ClassDecl.redeclarations, hLine, hName, hDeclares]

/-- How the classes of a program are declared if nothing is reported: all of them are registered, and then they
are settled in order. -/
structure DeclaredCleanly (p : Program) (cs : List ClassDecl) (order : List Nat) (start : Env) : Prop where
  collected : collectClasses p.classes {} = ⟨((cs, order), start), []⟩
  names : (objectName :: p.classes.map ClassDecl.name).Nodup
  nodup : order.Nodup
  covers : ∀ i < cs.length, i ∈ order
  unsettled : Unsettled (due order cs) start
  fresh : ∀ d ∈ cs, d.routines = []
  bare : ∀ c, c ≠ object → ∃ name, (start.types.classInfo c).orphan = { name }
  settled : settle (due order cs) start = ⟨(due order p.settledClasses, p.outset), []⟩
  memberless : p.settledClasses.map ClassDecl.memberless = cs.map ClassDecl.memberless

/-- A fresh program is declared this way if nothing is reported. Warnings are excluded as well. -/
theorem exists_declaredCleanly (hFresh : p.isFresh = true) (hLog : (declareClasses p.classes {}).log = []) :
    ∃ cs order start, DeclaredCleanly p cs order start := by
  have hUnresolved : ∀ d ∈ p.classes, d.resolved = none := fun d hd => (resolved_of_isFresh hFresh hd).1
  have hQuiet : Quiet (declareClasses p.classes {}).log := hLog ▸ fun d hd => absurd hd not_mem_nil
  have hDeclared : Declared (fun _ => True) p.classes p.settledClasses p.outset :=
    declared_of_quiet hFresh hQuiet
  have hNames : (objectName :: p.classes.map ClassDecl.name).Nodup :=
    hDeclared.classNames ▸ hDeclared.settled.lineal.found.nodup
  obtain ⟨linked, start, hGathered, hCollect, -⟩ := exists_gathered hUnresolved
  have hNodup := nodup_declarationOrder start.types (ClassDecl.registered p.classes)
  obtain ⟨x, hSettled, hDeclare⟩ := exists_settledInOrder hCollect hNodup
  have hLogs := hLog
  rw [hDeclare, append_eq_nil_iff] at hLogs
  have hNumbered := (registered_of_quiet hQuiet).2
  refine ⟨ClassDecl.registered p.classes, start.types.declarationOrder (ClassDecl.registered p.classes),
    start, ?_⟩
  constructor
  case collected => exact Logged.ext hCollect hLogs.1
  case names => exact hNames
  case nodup => exact hNodup
  case covers =>
    rw [hNumbered]
    exact mem_declarationOrder fun d hd => ClassDecl.exists_resolved_numbered hd
  case unsettled => exact hGathered.unsettled hUnresolved
  case fresh =>
    intro d hd
    rw [hNumbered] at hd
    obtain ⟨i, hi, rfl⟩ := ClassDecl.mem_numbered hd
    exact (resolved_of_isFresh hFresh (getElem_mem hi)).2
  case bare => exact fun c hc => hGathered.linking.bare hc
  case settled =>
    refine Logged.ext (Prod.ext ?_ ?_) (hSettled.log.symm.trans hLogs.2)
    · rw [settledClasses, hDeclare, hSettled.due]
    · rw [Program.outset, hDeclare, hSettled.env]
  case memberless =>
    simp only [settledClasses, declareClasses, value_bind, hCollect]
    rw [map_inOrder (fun d e => by rw [d.value_buildVMT]) hNodup,
      map_inOrder ClassDecl.memberless_complete hNodup,
      map_inOrder ClassDecl.memberless_declareMembers hNodup]

namespace DeclaredCleanly

variable {cs bs : List ClassDecl} {start : Env} (h : DeclaredCleanly p cs order start)

include h

theorem alike_start {g : Nat → Nat} (hg : Function.Injective g) (hRespects : ∀ n ≤ start.size, RespectsBound g n) :
    start.Alike (.ofNumbers id g) start := by
  refine .of_initial h.unsettled.methods h.unsettled.methods Function.injective_id rfl hg hRespects rfl
    (fun name => by simp) fun hRoot c => ?_
  by_cases hc : c = object
  · rw [hc, id, h.unsettled.root, hRoot]
  · obtain ⟨name, hBare⟩ := h.bare c hc
    exact (ClassInfo.renumber_of_orphan hBare rfl).symm

theorem length_settledClasses : p.settledClasses.length = cs.length := by
  have hEq := congrArg List.length h.memberless
  simpa using hEq

/-- Both runs over the members of the classes. -/
theorem exists_rerun (hSame : bs.map ClassDecl.bodiless = p.settledClasses.map ClassDecl.bodiless) :
    ∃ ds mid final mid' ds', Rerun start mid final mid' (due order cs) ds (due order p.settledClasses)
        (due order bs) ds' ∧
      p.outset = ((due order p.settledClasses).mapM ClassDecl.buildVMT final).value.2 := by
  obtain ⟨⟨⟨ds, mid⟩, log⟩, hDeclared⟩ : ∃ x, (due order cs).mapM ClassDecl.declareMembers start = x := ⟨_, rfl⟩
  obtain ⟨⟨⟨rs, final⟩, log'⟩, hCompleted⟩ : ∃ x, ds.mapM ClassDecl.complete mid = x := ⟨_, rfl⟩
  have hSettled := h.settled
  rw [settle_apply, hDeclared] at hSettled
  simp only [hCompleted, mapM_buildVMT, append_nil, Logged.mk.injEq, append_eq_nil_iff] at hSettled
  obtain ⟨hValue, rfl, rfl⟩ := hSettled
  have hEnv := congrArg Prod.snd hValue
  have hClasses := congrArg Prod.fst hValue
  rw [(mapM_buildVMT _ _).1] at hClasses
  simp only at hClasses hEnv
  subst hClasses
  refine ⟨ds, mid, final, _, _, ⟨h.unsettled.toPlaced, ?_, hDeclared, hCompleted, ?_, rfl⟩, hEnv.symm⟩
  · intro a ha
    obtain ⟨i, -, hAt⟩ := mem_filterMap.mp ha
    exact h.fresh a (mem_of_getElem? hAt)
  · rw [← due_map, hSame, due_map]

theorem owned : ∀ r ∈ p.settledClasses, r.Owned := by
  obtain ⟨ds, mid, final, mid', ds', hRerun, -⟩ := h.exists_rerun rfl
  intro r hr
  refine hRerun.owned r ((perm_due h.nodup ?_).mem_iff.mpr hr)
  rw [h.length_settledClasses]
  exact h.covers

/-- A second run collects the classes as the first one did, since neither looks at members. -/
theorem collectClasses_bodiless (hSame : bs.map ClassDecl.bodiless = p.settledClasses.map ClassDecl.bodiless) :
    collectClasses bs {} = ⟨((bs, order), start), []⟩ := by
  have hMemberless : bs.map ClassDecl.memberless =
      (collectClasses p.classes {}).value.1.1.map ClassDecl.memberless := by
    have hKept := congrArg (List.map ClassDecl.memberless) hSame
    rw [map_map, map_map] at hKept
    rw [h.collected, ← h.memberless]
    exact (hKept :)
  rw [(collectClasses_again h.names hMemberless).2, h.collected]

omit h in
/-- The first run leaves each class with all that it could be given. -/
theorem filled_of_mem_due (hFresh : p.isFresh = true) (hQuiet : Quiet (declareClasses p.classes {}).log)
    {r : ClassDecl} (hr : r ∈ due order p.settledClasses) (hc : r.resolved = some c) : r.Filled p.outset c := by
  have hDeclared : Declared (fun _ => True) p.classes p.settledClasses p.outset :=
    declared_of_quiet hFresh hQuiet
  obtain ⟨i, -, hAt⟩ := mem_filterMap.mp hr
  obtain ⟨hi, rfl⟩ := List.getElem?_eq_some_iff.mp hAt
  have hAll := formed_of_quiet hFresh hQuiet
  obtain ⟨c', hFormed⟩ := (forall₂_iff_get.mp hAll).2 i (hAll.length_eq ▸ hi) hi
  obtain rfl : c = c' := Option.some.inj (hc.symm.trans hFormed.resolved)
  exact hFormed.filled (hDeclared.settled.coherent c)

/-- What a second run makes of the classes, if it finds them with other bodies. -/
theorem exists_declaredAgain (hFresh : p.isFresh = true) (hQuiet : Quiet (declareClasses p.classes {}).log)
    {q : Program} (hSame : q.classes.map ClassDecl.bodiless = p.settledClasses.map ClassDecl.bodiless) :
    ∃ g : Nat → Nat, q.settledClasses = q.classes.map (fun b => (b.restamped (.ofNumbers id g)).regiven) ∧
      (declareClasses q.classes {}).log.Perm (p.classes.flatMap ClassDecl.redeclarations) ∧
      p.outset.Alike (.ofNumbers id g) q.outset ∧ q.outset.position = p.outset.position ∧
      q.outset.globals = p.outset.globals := by
  obtain ⟨ds, mid, final, mid', ds', hRerun, hOutset⟩ := h.exists_rerun hSame
  have hPlaced := hRerun.placed_declared.completed
  rw [hRerun.completed] at hPlaced
  obtain ⟨hTables, -⟩ := tabulated_pass hPlaced
  rw [← hOutset] at hTables
  obtain ⟨g, hValue, hLog, hAlike⟩ := hRerun.exists_settledAgain (fun _ => h.alike_start)
    fun r hr c hc => (filled_of_mem_due hFresh hQuiet hr hc).of_tabulates hTables
  rw [← hOutset] at hAlike
  have hCollect := h.collectClasses_bodiless hSame
  obtain ⟨x, hSettled, hDeclare⟩ := exists_settledInOrder (by rw [hCollect]) h.nodup
  have hLength := (completes_declareClasses q.classes {}).length_eq
  have hLength' := congrArg List.length hSame
  rw [length_map, length_map, h.length_settledClasses] at hLength'
  have hAfter : q.settledClasses = x.value.1 ∧ q.outset = x.value.2 := by
    rw [settledClasses, Program.outset, hDeclare]
    exact ⟨rfl, rfl⟩
  rw [← settledClasses, hAfter.1] at hLength
  have hFirst := hRerun.placed.growsAmong_settle
  have hSecond := hRerun.placed_again.growsAmong_settle
  rw [h.settled] at hFirst
  rw [hAfter.1, hAfter.2, hDeclare, hSettled.env]
  refine ⟨g, ?_, ?_, hAlike, hSecond.1.trans hFirst.1.symm, hSecond.2.1.trans hFirst.2.1.symm⟩
  · refine eq_of_due (by rw [length_map, ← hLength]) (by rw [length_map, hLength']; exact h.covers) ?_
    rw [hSettled.due, hValue, due_map]
  · rw [hCollect, nil_append, hSettled.log, hLog]
    refine ((perm_due h.nodup (hLength' ▸ h.covers)).flatMap_right _).trans (.of_eq ?_)
    have hReports := congrArg (List.map ClassDecl.redeclarations) hSame
    simp only [map_map, Function.comp_def, ClassDecl.redeclarations_bodiless] at hReports
    rw [flatMap_def, hReports, map_redeclarations_settledClasses hFresh hQuiet, flatMap_def]

end DeclaredCleanly
end Program
end TLang
