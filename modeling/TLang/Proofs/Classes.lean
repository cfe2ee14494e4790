import TLang.Proofs.Faults
import TLang.Proofs.Ledger

/-! The classes of a program when its first body is typed. If nothing terminal was reported, the
registry is settled, every declaration has registered its class, and every member is recorded. -/
namespace TLang

open Registry Analysis List

variable {ds : List ClassDecl}

variable {env : Env} {c : ClassId}

/-- A heading about which nothing terminal is reported gives a routine whose types are known. -/
theorem Env.routineOf_routineInfo (hFound : env.types.FoundByName) {d : MethodDecl}
    (hQuiet : Quiet (env.headingReports c d)) :
    env.types.RoutineOf c (env.routineInfo c d) := by
  rw [headingReports, record_apply, Quiet.append_iff, Quiet.append_iff] at hQuiet
  obtain ⟨hParams, hReturns, hShape⟩ := hQuiet
  have hNone : ∀ ty ∈ Bindings.types [], env.types.IsStored ty := fun _ hTy => absurd hTy not_mem_nil
  exact {
    owner := rfl
    signature := rfl
    label := rfl
    params := (@ensures_resolveParams _ (fun _ => True) hFound d.name d.params [] hNone hParams).2.2
    returns := (@ensures_resolveReturn _ (fun _ => True) hFound _ d hReturns).2.2
    named := (@ensures_checkShape _ (fun _ => True) _ d hShape).2.2 }

/-! What holds of the members of a class, apart from stamps, holds once it is declared and completed. -/

namespace ClassDecl

variable {names : String → Prop} {d : ClassDecl}

theorem declarable_defaultConstructor (d : ClassDecl) :
    (Member.method d.defaultConstructor).Declarable names := by
  refine ⟨nofun, rfl, ?_⟩
  simp [Stmt.CallBy, defaultConstructor, Stmt.superCall, Stmt.partsOfAll, Stmt.parts, Stmt.operands]

theorem declarable_defaultDestructor (d : ClassDecl) :
    (Member.method d.defaultDestructor).Declarable names := by
  simp [Member.Declarable, Stmt.CallBy, defaultDestructor, Stmt.partsOfAll, Stmt.areFresh]

theorem quiet_default (hName : (env.types.classInfo c).name = d.name) :
    Quiet (env.headingReports c d.defaultConstructor) ∧ Quiet (env.headingReports c d.defaultDestructor) := by
  simp [Quiet, Env.headingReports, record_apply, defaultConstructor, defaultDestructor, checkShape, resolveParams,
    resolveReturn, hName]

section Members

variable {P : Member → Prop} (hStamp : ∀ className member m, P member → P (Member.stamped className member m))

include hStamp

theorem forall_extend {members : List Member} (hOwn : ∀ member ∈ d.members, P member)
    (h : ∀ member ∈ members, P member) (env : Env) :
    ∀ member ∈ (d.extend c members env).value.1.members, P member := by
  rw [extend_apply, forall_mem_append]
  refine ⟨hOwn, fun member hMember => ?_⟩
  obtain ⟨original, hOriginal, m, rfl⟩ := Member.exists_of_mem_zipWith_stamped hMember
  exact hStamp _ original m (h original hOriginal)

variable (hResolved : d.resolved = some c) (h : ∀ member ∈ d.members, P member)

include hResolved h

theorem forall_declareMembers (env : Env) : ∀ member ∈ (d.declareMembers env).value.1.members, P member := by
  rw [declareMembers_eq hResolved]
  exact forall_extend hStamp (fun _ hNone => absurd hNone not_mem_nil) h env

theorem forall_complete (hDefaults : ∀ member ∈ d.defaults, P member) (env : Env) :
    ∀ member ∈ (d.complete env).value.1.members, P member := by
  obtain ⟨wanted, hSub, -, hComplete⟩ := exists_complete hResolved env
  rw [hComplete]
  exact forall_extend hStamp h (fun member hMember => hDefaults member (hSub.subset hMember)) _

end Members

/-- A class that was completed has a destructor. -/
theorem EnteredAs.exists_destructor_complete (h : d.EnteredAs env c) (hResolved : d.resolved = some c) :
    ∃ e, .method e ∈ (d.complete env).value.1.members ∧ e.kind = .destructor := by
  obtain ⟨wanted, -, hWanted, hComplete⟩ := exists_complete hResolved env
  rw [hComplete, hWanted h.registered, missing]
  cases hOld : (env.types.classInfo c).destructor with
  | some m =>
    obtain ⟨e, he, hKind, -⟩ := h.exists_destructor hOld
    exact ⟨e, mem_append_left _ he, hKind⟩
  | none =>
    rw [extend_append, value_bind]
    exact ⟨_, mem_append_right _ (mem_singleton_self _), rfl⟩

/-! Declaring a class and completing it keep what fields it asks for. -/

theorem fieldEntries_extend (Γ : Env) (c : ClassId) (members : List Member) (d : ClassDecl) (env : Env) :
    (d.extend c members env).value.1.fieldEntries Γ =
      d.fieldEntries Γ ++ members.flatMap (Member.fieldEntries Γ) := by
  rw [fieldEntries, flatMap_def, map_members_extend fun member _ => by cases member <;> rfl, ← flatMap_def,
    flatMap_append, fieldEntries]

theorem fieldEntries_declareMembers (hResolved : d.resolved = some c) (Γ env : Env) :
    (d.declareMembers env).value.1.fieldEntries Γ = d.fieldEntries Γ := by
  rw [declareMembers_eq hResolved, fieldEntries_extend]
  rfl

/-- Completing a class declares no fields of its own. What it inherits is not counted here. -/
theorem fieldEntries_complete (hResolved : d.resolved = some c) (Γ env : Env) :
    (d.complete env).value.1.fieldEntries Γ = d.fieldEntries Γ := by
  obtain ⟨wanted, hSub, -, hComplete⟩ := exists_complete hResolved env
  have hNone : wanted.flatMap (Member.fieldEntries Γ) = [] := by
    rw [flatMap_eq_nil_iff]
    intro member hMember
    obtain ⟨e, rfl, -⟩ := exists_of_mem_defaults (hSub.subset hMember)
    rfl
  rw [hComplete, fieldEntries_extend, hNone, append_nil]

/-- A class once it was declared and completed without a terminal report. -/
structure Made (names : String → Prop) (env : Env) (c : ClassId) (d : ClassDecl) : Prop where
  entered : d.EnteredAs env c
  accepted : d.Accepted
  members : ∀ member ∈ d.members, member.HeadingQuiet env c ∧ member.Declarable names
  destructor : ∃ e, .method e ∈ d.members ∧ e.kind = .destructor
  fields : (env.types.classInfo c).fields = Bindings.extend [] (d.fieldEntries env)

namespace Made

variable (h : d.Made names env c)

include h

/-- A class whose members were all accepted has coherent tables. Coherence of its ancestors is not needed. -/
theorem coherentAt (hFound : env.types.FoundByName) (hTidy : env.types.TidyAt c) : env.types.CoherentAt names c where
  table := hTidy.table
  distinct := hTidy.distinct
  bounded := hTidy.bounded
  routine := by
    intro m hm
    obtain ⟨e, he, hInfo⟩ := h.entered.exists_record hm
    exact hInfo ▸ Env.routineOf_routineInfo hFound (h.members _ he).1
  named := by
    intro m hm
    obtain ⟨e, he, hInfo⟩ := h.entered.exists_record hm
    exact hInfo ▸ (h.members _ he).2.1
  fields := by
    intro f hf
    rw [h.fields] at hf
    obtain ⟨member, hMember, hf⟩ :=
      mem_flatMap.mp ((Bindings.mem_of_mem_extend hf).resolve_left not_mem_nil)
    have hQuiet := (h.members member hMember).1
    cases member with
    | method e => cases hf
    | field d =>
      obtain ⟨name, -, rfl⟩ := mem_map.mp hf
      exact (Env.resolveTypeName_quiet hFound hQuiet).2

theorem isSome_destructor : (env.types.classInfo c).destructor.isSome := by
  obtain ⟨e, he, hKind⟩ := h.destructor
  obtain ⟨m, hm⟩ := h.accepted e he
  have hAccepted : m ∈ d.accepted .destructor :=
    mem_filterMap.mpr ⟨_, he, (if_pos hKind).trans hm⟩
  rw [← h.entered.destructor] at hAccepted
  exact Option.isSome_iff_exists.mpr ⟨m, Option.mem_toList.mp hAccepted⟩

theorem membersDeclared : d.MembersDeclared env.types c := by
  intro member hMember
  cases member with
  | field f => trivial
  | method e =>
    obtain ⟨m, hm⟩ := h.accepted e hMember
    obtain ⟨hLt, hInfo⟩ := h.entered.records e hMember m hm
    refine ⟨m, hm, ?_, hLt, congrArg MethodInfo.kind hInfo, congrArg MethodInfo.name hInfo⟩
    rw [h.entered.methods]
    exact mem_filterMap.mpr ⟨_, hMember, hm⟩

end Made

theorem exists_resolved_numbered (hd : d ∈ numbered 1 ds) : ∃ c, d.resolved = some c := by
  obtain ⟨i, -, rfl⟩ := mem_numbered hd
  exact ⟨_, rfl⟩

end ClassDecl

namespace Program

open ClassDecl

variable {names : String → Prop}

/-- What is known of a class whose members are declared. -/
def KnownIn (names : String → Prop) (d : ClassDecl) (env : Env) : Prop :=
  ∃ id, d.Linked names env.types id ∧ d.MembersDeclared env.types id

/-- The classes of a program as they are left for their bodies to be typed. -/
structure Declared (names : String → Prop) (source ds : List ClassDecl) (env : Env) : Prop where
  settled : env.types.Settled names
  bare : env.types.Bare
  classNames : env.types.classes.map ClassInfo.name = objectName :: source.map ClassDecl.name
  globals : env.globals = {}
  position : env.position = {}
  classes : ∀ d ∈ ds, ∃ id, d.Linked names env.types id ∧ d.MembersDeclared env.types id

variable {ds : List ClassDecl}

/-- If nothing terminal is reported, no name is declared twice and so every declaration is registered. -/
theorem registered_of_quiet (hQuiet : Quiet (declareClasses ds {}).log) :
    firsts ds = ds ∧ registered ds = numbered 1 ds := by
  apply registered_of_gaps
  by_contra hSome
  obtain ⟨d, hd⟩ := exists_mem_of_ne_nil _ hSome
  have hMem : d.redefinition ∈ (declareClasses ds {}).log := by
    rw [declareClasses, log_bind, collectClasses, log_bind, mapM_register_start]
    exact mem_append_left _ (mem_append_left _ (mem_map_of_mem hd))
  cases hQuiet _ hMem

/-- What is known of the classes of a program if nothing terminal was reported while they were settled. -/
theorem declared_declareClasses (hEquals : names "equals")
    (hFresh : ∀ d ∈ ds, d.resolved = none ∧ d.routines = [])
    (hDs : ∀ d ∈ ds, ∀ member ∈ d.members, member.Declarable names)
    (hQuiet : Quiet (declareClasses ds {}).log) :
    Declared names ds (declareClasses ds {}).value.1 (declareClasses ds {}).value.2 := by
  have hSettles := settles_declareClasses hFresh
  have hEstablished := established_declareClasses hFresh
  obtain ⟨hFirsts, hNumbered⟩ := registered_of_quiet hQuiet
  generalize (declareClasses ds {}).value.1 = classes at hSettles hEstablished ⊢
  generalize (declareClasses ds {}).value.2 = env at hSettles hEstablished ⊢
  have hLedger := hSettles.ledger
  have hConsistent := hEstablished.consistent
  -- What becomes of a declaration.
  have hClass : ∀ d ∈ classes, ∃ c, d.resolved = some c := by
    intro d hd
    have hMem : d.resolved ∈ (numbered 1 ds).map ClassDecl.resolved := by
      rw [← hNumbered, ← hSettles.numbers]
      exact mem_map_of_mem hd
    obtain ⟨d₀, hd₀, hEq⟩ := mem_map.mp hMem
    obtain ⟨c, hc⟩ := exists_resolved_numbered hd₀
    exact ⟨c, hEq.symm.trans hc⟩
  have hMade : ∀ d ∈ classes, ∀ c, d.resolved = some c → Made names env c d := by
    intro d hd c hc
    obtain ⟨i, hi⟩ := mem_iff_getElem?.mp hd
    obtain ⟨d₀, own, e, e', hd₀, rfl, rfl, hEntered, rfl, hAccepted⟩ := hSettles.completed i d c hi hc
    have hResolved := resolved_declareMembers { d₀ with resolved := some (place ds i) } e
    obtain ⟨hAccepted, hQuiets⟩ := hAccepted hQuiet
    have hStamp : ∀ className member m, member.HeadingQuiet env (place ds i) ∧ member.Declarable names →
        (Member.stamped className member m).HeadingQuiet env (place ds i) ∧
          (Member.stamped className member m).Declarable names := by
      intro className member m h
      cases member <;> exact h
    have hOwn := forall_declareMembers (d := { d₀ with resolved := some (place ds i) })
      (P := fun member => member.HeadingQuiet env (place ds i) ∧ member.Declarable names)
      hStamp rfl
      (fun member hMember => ⟨hQuiets member hMember, hDs d₀ (mem_of_getElem? hd₀.here) member hMember⟩) e
    refine ⟨hLedger.entered _ hd _ hc, hAccepted, ?_, hEntered.exists_destructor_complete hResolved, ?_⟩
    · have hName : (env.types.classInfo (place ds i)).name =
          ({ d₀ with resolved := some (place ds i) }.declareMembers e).value.1.name := by
        rw [declareMembers_eq rfl]
        exact (hd₀.name_place hEstablished.names).2
      obtain ⟨hConstructor, hDestructor⟩ := quiet_default hName
      refine forall_complete hStamp hResolved hOwn ?_ e'
      rw [defaults, forall_mem_cons, forall_mem_singleton]
      exact ⟨⟨hConstructor, declarable_defaultConstructor _⟩, hDestructor, declarable_defaultDestructor _⟩
    · rw [fieldEntries_complete hResolved, fieldEntries_declareMembers rfl]
      exact hEstablished.fields i d₀ hd₀
  exact {
    settled := {
      lineal := hConsistent.lineal
      coherent := by
        intro c
        by_cases hRoot : c = object
        · exact hRoot ▸ coherentAt_root hEquals hConsistent.lineal.rooted hLedger.root hLedger.rootMethods
        by_cases hc : c.index < env.types.classes.length
        · obtain ⟨d, hd, hResolved⟩ := hLedger.covered c hc hRoot
          exact (hMade d hd c hResolved).coherentAt hConsistent.lineal.found (hConsistent.tidy c)
        · refine @coherentAt_bare _ _ _ "" ?_
          rw [classInfo, List.getElem?_eq_none (Nat.le_of_not_lt hc)]
          rfl
      destructor := by
        intro c hc
        by_cases hRoot : c = object
        · rw [hRoot, hLedger.root]
          rfl
        · obtain ⟨d, hd, hResolved⟩ := hLedger.covered c hc hRoot
          exact (hMade d hd c hResolved).isSome_destructor
      lookups := hConsistent.lookups
      root := by rw [hLedger.root]; exact cons_ne_nil _ _
      tables := hConsistent.tables }
    bare := hEstablished.bare
    classNames := hFirsts ▸ hEstablished.names
    globals := hEstablished.globals
    position := hEstablished.position
    classes := by
      intro d hd
      obtain ⟨c, hc⟩ := hClass d hd
      have hEntered := hLedger.entered d hd c hc
      have hMembers := (hMade d hd c hc).members
      exact ⟨c, ⟨hc, hEntered.registered, hEntered.below, hEntered.name, fun member h => (hMembers member h).2⟩,
        (hMade d hd c hc).membersDeclared⟩ }

end Program
end TLang
