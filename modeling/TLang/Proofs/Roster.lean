import TLang.Proofs.Outcome

/-! The roster of a program. What the tree declares and what the registry records are the same
routines in the same order: every method that is declared is registered in its class, and every
method that is registered, other than those of the root class, is declared once in the tree. The
destructor of a class is one of its own routines. -/
namespace TLang

open Registry Analysis List

variable {p : Program}

/-- The method is a destructor, and the class declares it itself. -/
structure Registry.DestroyedBy (r : Registry) (c : ClassId) (m : MethodId) : Prop where
  mem : m ∈ (r.classInfo c).methods
  lt : m.index < r.methods.length
  kind : (r.methodInfo m).kind = .destructor

/-- The declarations are those of all classes but the root, in the order of their numbers, and each
declares the routines that its class has. -/
structure Enrolled (ds : List ClassDecl) (r : Registry) : Prop where
  ids : some object :: ds.map ClassDecl.resolved = r.classIds.map some
  routines : ∀ d ∈ ds, ∀ c, d.resolved = some c → d.routines = (r.classInfo c).methods
  destructors : ∀ c m, (r.classInfo c).destructor = some m → r.DestroyedBy c m
  root : r.classInfo object = initial.classInfo object
  rootMethods : ∀ m ∈ (initial.classInfo object).methods, m.index < r.methods.length ∧
    (r.methodInfo m).heading = initial.methodInfo m

namespace Enrolled

variable {ds : List ClassDecl} {r r' : Registry}

theorem nodup_ids (h : Enrolled ds r) : (some object :: ds.map ClassDecl.resolved).Nodup := by
  rw [h.ids]
  apply List.Nodup.map (Option.some_injective _)
  apply List.Nodup.map _ nodup_range
  intro i j hij
  exact ClassId.mk.inj hij

theorem exists_resolved (h : Enrolled ds r) {d : ClassDecl} (hd : d ∈ ds) :
    ∃ c, d.resolved = some c ∧ c.index < r.classes.length ∧ c ≠ object := by
  have hMem : d.resolved ∈ r.classIds.map some := by
    rw [← h.ids]
    exact mem_cons_of_mem _ (mem_map_of_mem hd)
  obtain ⟨c, hc, hResolved⟩ := mem_map.mp hMem
  refine ⟨c, hResolved.symm, mem_classIds.mp hc, ?_⟩
  rintro rfl
  have hNot := (nodup_cons.mp h.nodup_ids).1
  rw [hResolved] at hNot
  exact hNot (mem_map_of_mem hd)

/-- Every class but the root is declared. -/
theorem exists_decl (h : Enrolled ds r) {c : ClassId} (hc : c.index < r.classes.length)
    (hBelow : c ≠ object) : ∃ d ∈ ds, d.resolved = some c := by
  have hMem : some c ∈ some object :: ds.map ClassDecl.resolved := by
    rw [h.ids]
    exact mem_map_of_mem (mem_classIds.mpr hc)
  rcases mem_cons.mp hMem with hRoot | hMem
  · exact absurd (Option.some.inj hRoot) hBelow
  · exact mem_map.mp hMem

end Enrolled

namespace Program

/-- Classes that are settled without a terminal report are enrolled. -/
theorem enrolled_declareClasses (hFresh : p.isFresh = true) (hQuiet : Quiet (declareClasses p.classes {}).log) :
    Enrolled (declareClasses p.classes {}).value.1 (declareClasses p.classes {}).value.2.types := by
  have hSettles := @settles_declareClasses p.classes fun _ => resolved_of_isFresh hFresh
  have hLength : (declareClasses p.classes {}).value.2.types.classes.length = p.classes.length + 1 := by
    simpa using congrArg List.length (declared_of_quiet hFresh hQuiet).classNames
  have hLedger := hSettles.ledger
  generalize (declareClasses p.classes {}).value.1 = classes at hSettles hLedger ⊢
  generalize (declareClasses p.classes {}).value.2 = env at hSettles hLedger hLength ⊢
  refine ⟨?_, fun d hd c hc => (hLedger.entered d hd c hc).methods.symm, ?_, hLedger.root, ?_⟩
  · rw [hSettles.numbers, (registered_of_quiet hQuiet).2, classIds, hLength, range_succ_eq_map,
      map_cons, map_cons]
    apply congrArg (List.cons _)
    apply ext_getElem
    · simp [ClassDecl.numbered]
    · intro i _ _
      simp [ClassDecl.numbered, Nat.add_comm]
  · intro c m hm
    by_cases hRoot : c = object
    · subst hRoot
      rw [hLedger.root] at hm
      cases hm
      have hInfo := methodInfo_of_prefix hLedger.rootMethods (m := ⟨1⟩) (by decide)
      exact ⟨by rw [hLedger.root]; decide, Nat.lt_of_lt_of_le (by decide) hLedger.rootMethods.length_le,
        by rw [hInfo]; rfl⟩
    · have hc : c.index < env.types.classes.length := by
        by_contra hOut
        simp [classInfo, List.getElem?_eq_none (Nat.le_of_not_lt hOut)] at hm
      obtain ⟨d, hd, hResolved⟩ := hLedger.covered c hc hRoot
      have hEntered := hLedger.entered d hd c hResolved
      obtain ⟨e, he, hKind, hMethod⟩ := hEntered.exists_destructor hm
      obtain ⟨hLt, hInfo⟩ := hEntered.records e he m hMethod
      refine ⟨?_, hLt, by rw [hInfo]; exact hKind⟩
      rw [hEntered.methods]
      exact mem_filterMap.mpr ⟨_, he, hMethod⟩
  · intro m hm
    have hInitial : ∀ m ∈ (initial.classInfo object).methods, m.index < initial.methods.length ∧
        (initial.methodInfo m).heading = initial.methodInfo m := by decide
    obtain ⟨hBound, hHeading⟩ := hInitial m hm
    have hInfo := methodInfo_of_prefix hLedger.rootMethods hBound
    exact ⟨Nat.lt_of_lt_of_le hBound hLedger.rootMethods.length_le, hInfo ▸ hHeading⟩

end Program

/-! Typing the bodies keeps the roster. -/

/-- Typing a member leaves alone what does not depend on its body. -/
theorem Member.view_analyzeBody {β : Type} (view : Member → β)
    (hView : ∀ (d : MethodDecl) body, view (.method { d with body }) = view (.method d)) (member : Member)
    (env : Env) : view (member.analyzeBody env).value.1 = view member := by
  cases member with
  | field d => rfl
  | method d =>
    cases hResolved : d.resolved with
    | none => simp [analyzeBody, MethodDecl.analyzeBody, hResolved]
    | some m =>
      simp only [analyzeBody, MethodDecl.analyzeBody, hResolved, value_bind, pure_apply]
      rw [← hResolved]
      exact hView d _

theorem Member.routine?_analyzeBody (member : Member) (env : Env) :
    (member.analyzeBody env).value.1.routine? = member.routine? :=
  member.view_analyzeBody routine? (fun _ _ => rfl) env

theorem ClassDecl.map_analyzeBodies {β : Type} (view : Member → β)
    (hView : ∀ (d : MethodDecl) body, view (.method { d with body }) = view (.method d)) (d : ClassDecl)
    (env : Env) : (d.analyzeBodies env).value.1.members.map view = d.members.map view := by
  cases hResolved : d.resolved with
  | none => simp [analyzeBodies, hResolved]
  | some c =>
    have hMembers := map_value_mapM (Member.view_analyzeBody view hView) d.members
      (env.updatePosition (·.enterClass c))
    simpa [analyzeBodies, hResolved] using hMembers

theorem ClassDecl.roster_analyzeBodies (d : ClassDecl) (env : Env) :
    ((d.analyzeBodies env).value.1.resolved, (d.analyzeBodies env).value.1.routines) =
      (d.resolved, d.routines) := by
  have hRoutines := congrArg (List.filterMap id) (d.map_analyzeBodies Member.routine? (fun _ _ => rfl) env)
  rw [filterMap_map, filterMap_map] at hRoutines
  refine Prod.ext ?_ hRoutines
  cases hResolved : d.resolved <;> simp [analyzeBodies, hResolved]

namespace Enrolled

variable {ds ds' : List ClassDecl} {r r' : Registry}

theorem of_interface (h : Enrolled ds r) (hInterface : SameInterface r r')
    (hDs : (ds'.map fun d => (d.resolved, d.routines)) = ds.map fun d => (d.resolved, d.routines)) :
    Enrolled ds' r' := by
  have hResolved : ds'.map ClassDecl.resolved = ds.map ClassDecl.resolved := by
    simpa [Function.comp_def] using congrArg (List.map Prod.fst) hDs
  refine ⟨?_, ?_, ?_, ?_, ?_⟩
  · rw [hResolved, h.ids, classIds, classIds, hInterface.classes]
  · intro d' hd' c hc
    have hMem : (d'.resolved, d'.routines) ∈ ds.map fun d => (d.resolved, d.routines) := by
      rw [← hDs]
      exact mem_map_of_mem hd'
    obtain ⟨d, hd, hEq⟩ := mem_map.mp hMem
    rw [Prod.mk.injEq] at hEq
    rw [← hEq.2, hInterface.classInfo]
    exact h.routines d hd c (hEq.1.trans hc)
  · intro c m hm
    rw [hInterface.classInfo] at hm
    obtain ⟨hMem, hLt, hKind⟩ := h.destructors c m hm
    exact ⟨hInterface.classInfo ▸ hMem, hInterface.length ▸ hLt, (hInterface.kind m).trans hKind⟩
  · rw [hInterface.classInfo, h.root]
  · intro m hm
    obtain ⟨hLt, hHeading⟩ := h.rootMethods m hm
    exact ⟨hInterface.length ▸ hLt, (hInterface.headings m).trans hHeading⟩

end Enrolled

/-- When nothing terminal is reported, tree and registry agree on all routines. -/
theorem Program.enrolled (hFresh : p.isFresh = true) (hQuiet : Quiet p.diagnostics) :
    Enrolled p.analyzed.classes p.env.types := by
  have hYields : Yields p.analyze {} fun _ p' env => Enrolled p'.classes env.types := by
    have hDeclare : Yields (declareClasses p.classes) {} fun _ ds env =>
        Declared (fun _ => True) p.classes ds env ∧ Enrolled ds env.types :=
      fun hLog => ⟨declared_of_quiet hFresh hLog, enrolled_declareClasses hFresh hLog⟩
    refine Yields.bind hDeclare ?_
    rintro log ds env ⟨hDeclared, hEnrolled⟩ hLog
    have hMain : Stmt.areFresh p.main.body = true := areFresh_main hFresh
    have hBodies := yields_analyzeBodies { p with classes := ds } hDeclared hMain
      ((MethodNames.trivial p).called.within (subset_append_right _ _)) hLog
    refine hEnrolled.of_interface hBodies.frame.below.interface ?_
    exact map_value_mapM ClassDecl.roster_analyzeBodies ds env
  exact hYields hQuiet

end TLang
