import TLang.Proofs.Consistency
import TLang.Proofs.Decoration
import TLang.Proofs.Delegation

/-! What classes are provided with. Once a program compiles, each of its classes has one destructor and at
least one constructor, in the tree as well as in the registry. Analysis makes those that the program does
not declare and no others. The body of every constructor opens with the call of another one, and there
are no other such calls. -/
namespace TLang

open Registry Analysis List

variable {source d' : ClassDecl} {s : Stmt} {ss : List Stmt}

variable {e : MethodDecl} {env : Env} {c : ClassId} {d : ClassDecl}

/-! Routines by their kind. -/

/-- The member if it is a routine of the kind. -/
def Member.methodOf? (kind : MethodKind) : Member → Option MethodDecl
  | field _ => none
  | method e => if e.kind = kind then some e else none

/-- The routines of a kind that a class declares. -/
def ClassDecl.methodsOf (kind : MethodKind) (d : ClassDecl) : List MethodDecl :=
  d.members.filterMap (Member.methodOf? kind)

/-- The routines of a kind that a class has in the registry. -/
def Registry.routinesOf (r : Registry) (kind : MethodKind) (c : ClassId) : List MethodId :=
  (r.classInfo c).methods.filter fun m => (r.methodInfo m).kind = kind

namespace ClassDecl

variable {kind : MethodKind}

/-- The routines of a kind are the members of that kind, whether they were accepted or not. -/
theorem mem_methodsOf_iff : e ∈ d.methodsOf kind ↔ .method e ∈ d.members ∧ e.kind = kind := by
  rw [methodsOf, mem_filterMap]
  constructor
  · rintro ⟨member, hMember, hEq⟩
    cases member with
    | field f => cases hEq
    | method e' =>
      rw [Member.methodOf?] at hEq
      split at hEq
      · rename_i hKind
        cases hEq
        exact ⟨hMember, hKind⟩
      · cases hEq
  · rintro ⟨hMember, hKind⟩
    exact ⟨_, hMember, if_pos hKind⟩

theorem methodsOf_append (members added : List Member) :
    methodsOf kind { d with members := members ++ added } =
      methodsOf kind { d with members } ++ added.filterMap (Member.methodOf? kind) :=
  filterMap_append

theorem map_erase_methodsOf (kind : MethodKind) (members : List Member) :
    (members.filterMap (Member.methodOf? kind)).map MethodDecl.erase =
      (members.map Member.erase).filterMap (Member.methodOf? kind) := by
  rw [map_filterMap, filterMap_map]
  refine filterMap_congr ?_
  intro member _
  cases member with
  | field f => rfl
  | method e =>
    by_cases hKind : e.kind = kind
    · simp [Member.methodOf?, Member.erase, MethodDecl.erase, hKind]
    · simp [Member.methodOf?, Member.erase, MethodDecl.erase, hKind]

/-! Completing a class. -/

/-- What a class is given when its turn has come. -/
def supplies (d : ClassDecl) : List Member :=
  (if d.notes .constructor then [] else [.method d.defaultConstructor.erase]) ++
    if d.accepted .destructor = [] then [.method d.defaultDestructor.erase] else []

/-- A class gets a constructor unless the program declares one, and a destructor unless it has one. -/
theorem EnteredAs.exists_supplied (h : d.EnteredAs env c) (hResolved : d.resolved = some c) : ∃ added,
      (d.complete env).value.1 = { d with members := d.members ++ added } ∧
        added.map Member.erase = d.supplies := by
  obtain ⟨wanted, -, hWanted, hComplete⟩ := exists_complete hResolved env
  rw [hComplete, extend_apply]
  refine ⟨_, rfl, ?_⟩
  have hNoted : (env.types.classInfo c).hasConstructor = d.notes .constructor := congrArg (·.2.1) h.page
  have hDestructor : (env.types.classInfo c).destructor.toList = d.accepted .destructor :=
    congrArg (·.2.2.2) h.page
  rw [Member.map_zipWith_stamped (Member.erase_stamped _) _ (length_mapM _ _ _), hWanted h.registered, missing,
    supplies, hNoted, ← hDestructor, map_append]
  congr 1
  · split <;> rfl
  · cases (env.types.classInfo c).destructor <;> rfl

/-! The tree and the registry. -/

/-- The numbers of the accepted routines of a kind, in the order in which the class declares them. -/
theorem accepted_eq (kind : MethodKind) (d : ClassDecl) :
    d.accepted kind = (d.methodsOf kind).filterMap MethodDecl.resolved := by
  rw [accepted, methodsOf, filterMap_filterMap]
  refine filterMap_congr ?_
  intro member _
  cases member with
  | field f => rfl
  | method e =>
    rw [Member.accepted?, Member.methodOf?]
    split
    · rfl
    · rfl

/-- The registry has the routines that were accepted. -/
theorem EnteredAs.routinesOf (h : d.EnteredAs env c) (kind : MethodKind) :
    env.types.routinesOf kind c = d.accepted kind := by
  rw [Registry.routinesOf, h.methods, routines, accepted, filter_filterMap]
  refine filterMap_congr ?_
  intro member hMember
  cases member with
  | field f => rfl
  | method e =>
    rw [Member.routine?, Member.accepted?]
    cases hResolved : e.resolved with
    | none => simp
    | some m =>
      obtain ⟨-, hInfo⟩ := h.records e hMember m hResolved
      have hKind : (env.types.methodInfo m).kind = e.kind := hInfo ▸ rfl
      simp [Option.filter, hKind]

/-- If all members were accepted, then the registry misses none of them. -/
theorem Accepted.map_some (h : d.Accepted) (kind : MethodKind) :
    (d.accepted kind).map some = (d.methodsOf kind).map MethodDecl.resolved := by
  have hEach : ∀ e ∈ d.methodsOf kind, ∃ m, e.resolved = some m :=
    fun e he => h e (mem_methodsOf_iff.mp he).1
  rw [accepted_eq]
  generalize d.methodsOf kind = es at hEach
  induction es with
  | nil => rfl
  | cons e es ih =>
    rw [forall_mem_cons] at hEach
    obtain ⟨⟨m, hm⟩, hRest⟩ := hEach
    rw [filterMap_cons_some hm, map_cons, map_cons, ih hRest, hm]

theorem Accepted.accepted_eq_nil_iff (h : d.Accepted) : d.accepted kind = [] ↔ d.methodsOf kind = [] := by
  rw [← map_eq_nil_iff (f := some), h.map_some, map_eq_nil_iff]

/-- A routine is noted unless analysis has made it. -/
theorem Accepted.notes_eq (h : d.Accepted) (kind : MethodKind) :
    d.notes kind = (d.methodsOf kind).any fun e => !e.synthetic := by
  rw [notes, methodsOf, any_filterMap, Bool.eq_iff_iff, any_eq_true, any_eq_true]
  refine exists_congr fun member => and_congr_right fun hMember => ?_
  cases member with
  | field f => simp [Member.notes, Member.methodOf?]
  | method e =>
    obtain ⟨m, hm⟩ := h e hMember
    by_cases hKind : e.kind = kind
    · simp [Member.notes, Member.methodOf?, hm, hKind]
    · simp [Member.notes, Member.methodOf?, hKind]

/-- What a class is given of a kind: nothing if it declares some routine of the kind, and else one without
parameters. -/
theorem Accepted.exists_default (h : d.Accepted) (hOwn : ∀ e ∈ d.methodsOf kind, e.synthetic = false)
    (hKind : kind ≠ .method) : ∃ routine : MethodDecl, routine.synthetic = true ∧ routine.params = [] ∧
      d.supplies.filterMap (Member.methodOf? kind) =
        if d.methodsOf kind = [] then [routine.erase] else [] := by
  cases kind with
  | method => exact absurd rfl hKind
  | constructor =>
    refine ⟨d.defaultConstructor, rfl, rfl, ?_⟩
    have hNotes : d.notes .constructor = true ↔ d.methodsOf .constructor ≠ [] := by
      rw [h.notes_eq, any_eq_true]
      constructor
      · rintro ⟨e, he, -⟩
        exact ne_nil_of_mem he
      · intro hSome
        obtain ⟨e, he⟩ := exists_mem_of_ne_nil _ hSome
        exact ⟨e, he, by simp [hOwn e he]⟩
    by_cases hNone : d.methodsOf .constructor = []
    · simp [supplies, Member.methodOf?, MethodDecl.erase, defaultConstructor, defaultDestructor, hNotes, hNone]
    · simp [supplies, Member.methodOf?, MethodDecl.erase, defaultDestructor, hNotes, hNone]
  | destructor =>
    refine ⟨d.defaultDestructor, rfl, rfl, ?_⟩
    have hFirst : (if d.notes .constructor then [] else [Member.method d.defaultConstructor.erase]).filterMap
        (Member.methodOf? .destructor) = [] := by
      split <;> simp [Member.methodOf?, MethodDecl.erase, defaultConstructor]
    rw [supplies, filterMap_append, hFirst, nil_append]
    simp only [h.accepted_eq_nil_iff]
    split <;> simp [Member.methodOf?, MethodDecl.erase, defaultDestructor]

/-- The routines of a class after its members were declared and it was completed. -/
theorem EnteredAs.methodsOf_complete {own : ClassDecl} (h : own.EnteredAs env c)
    (hResolved : own.resolved = some c) (hStamps : source.Stamps own)
    (hFresh : ∀ e, .method e ∈ source.members → e.synthetic = false)
    (hAccepted : (own.complete env).value.1.Accepted) (hKind : kind ≠ .method) :
    (source.methodsOf kind ≠ [] ∧ (own.complete env).value.1.methodsOf kind ≠ [] ∧
        ∀ e ∈ (own.complete env).value.1.methodsOf kind, e.synthetic = false) ∨
      (source.methodsOf kind = [] ∧ ∃ e, (own.complete env).value.1.methodsOf kind = [e] ∧
        e.synthetic = true ∧ e.params = []) := by
  obtain ⟨added, hValue, hAdded⟩ := h.exists_supplied hResolved
  rw [hValue] at hAccepted ⊢
  have hOwnAccepted : own.Accepted := fun e he => hAccepted e (mem_append_left _ he)
  have hSame : (own.methodsOf kind).map MethodDecl.erase = (source.methodsOf kind).map MethodDecl.erase := by
    have hMembers : own.members.map Member.erase = source.members.map Member.erase :=
      congrArg ClassDecl.members hStamps.erase
    rw [methodsOf, map_erase_methodsOf, hMembers, ← map_erase_methodsOf, methodsOf]
  have hNil : own.methodsOf kind = [] ↔ source.methodsOf kind = [] := by
    rw [← map_eq_nil_iff (f := MethodDecl.erase), hSame, map_eq_nil_iff]
  have hOwn : ∀ e ∈ own.methodsOf kind, e.synthetic = false := by
    intro e he
    have hErase := mem_map_of_mem (f := MethodDecl.erase) he
    rw [hSame] at hErase
    obtain ⟨e₀, he₀, hEq⟩ := mem_map.mp hErase
    exact (congrArg MethodDecl.synthetic hEq :).symm.trans (hFresh e₀ (mem_methodsOf_iff.mp he₀).1)
  obtain ⟨routine, hSynthetic, hParams, hSupplies⟩ := hOwnAccepted.exists_default hOwn hKind
  rw [methodsOf_append]
  rw [← hAdded, ← map_erase_methodsOf] at hSupplies
  by_cases hNone : own.methodsOf kind = []
  · rw [if_pos hNone] at hSupplies
    obtain ⟨e, hSingle, hErase⟩ := map_eq_singleton_iff.mp hSupplies
    refine .inr ⟨hNil.mp hNone, e, ?_, ?_, ?_⟩
    · rw [hSingle]
      exact congrArg (· ++ [e]) hNone
    · exact (congrArg MethodDecl.synthetic hErase :).trans hSynthetic
    · exact (congrArg MethodDecl.params hErase :).trans hParams
  · rw [if_neg hNone, map_eq_nil_iff] at hSupplies
    rw [hSupplies, append_nil]
    exact .inl ⟨fun hEmpty => hNone (hNil.mpr hEmpty), hNone, hOwn⟩

/-- What is known of a class, apart from the bodies of its routines, once all its members were accepted and
it was completed. -/
structure Formed (Γ : Env) (c : ClassId) (source d : ClassDecl) : Prop where
  resolved : d.resolved = some c
  name : d.name = source.name
  entered : d.EnteredAs Γ c
  accepted : d.Accepted
  kinds : ∀ kind, kind ≠ .method →
    (source.methodsOf kind ≠ [] ∧ d.methodsOf kind ≠ [] ∧ ∀ e ∈ d.methodsOf kind, e.synthetic = false) ∨
      (source.methodsOf kind = [] ∧ ∃ e, d.methodsOf kind = [e] ∧ e.synthetic = true ∧ e.params = [])

/-- The first declaration is provided with all that a class needs, and the second one and the registry
show it. -/
structure Provided (r : Registry) (c : ClassId) (source d : ClassDecl) : Prop where
  resolved : d.resolved = some c
  lookup : r.lookupClass source.name = some c
  routines : ∀ kind, (r.routinesOf kind c).map some = (d.methodsOf kind).map MethodDecl.resolved
  constructors : d.methodsOf .constructor ≠ []
  destructors : (d.methodsOf .destructor).length = 1
  destructor : r.routinesOf .destructor c = (r.classInfo c).destructor.toList
  noted : (r.classInfo c).hasConstructor = !(source.methodsOf .constructor).isEmpty ∧
    (r.classInfo c).hasDestructor = !(source.methodsOf .destructor).isEmpty
  synthetic : ∀ kind, kind ≠ .method →
    ((∃ e ∈ d.methodsOf kind, e.synthetic = true) ↔ source.methodsOf kind = [])
  made : ∀ kind, kind ≠ .method → source.methodsOf kind = [] → ∃ e m, d.methodsOf kind = [e] ∧
    e.params = [] ∧ e.resolved = some m ∧ (r.methodInfo m).params = []

namespace Formed

variable {Γ : Env} {source : ClassDecl} (h : Formed Γ c source d)

include h

theorem notes (kind : MethodKind) (hKind : kind ≠ .method) : d.notes kind = !(source.methodsOf kind).isEmpty := by
  rw [h.accepted.notes_eq]
  rcases h.kinds kind hKind with ⟨hSome, hMade, hPlain⟩ | ⟨hNone, e, hMade, hSynthetic, -⟩
  · obtain ⟨e, he⟩ := exists_mem_of_ne_nil _ hMade
    rw [isEmpty_eq_false_iff.mpr hSome, any_eq_true.mpr ⟨e, he, by simp [hPlain e he]⟩]
    rfl
  · simp [hNone, hMade, hSynthetic]

theorem methodsOf_ne_nil (hKind : kind ≠ .method) : d.methodsOf kind ≠ [] := by
  rcases h.kinds kind hKind with ⟨-, hMade, -⟩ | ⟨-, e, hMade, -, -⟩
  · exact hMade
  · rw [hMade]
    exact cons_ne_nil _ _

theorem routines (kind : MethodKind) :
    (Γ.types.routinesOf kind c).map some = (d.methodsOf kind).map MethodDecl.resolved := by
  rw [h.entered.routinesOf, h.accepted.map_some]

theorem destructor : Γ.types.routinesOf .destructor c = (Γ.types.classInfo c).destructor.toList := by
  rw [h.entered.routinesOf, h.entered.destructor]

theorem length_destructors : (d.methodsOf .destructor).length = 1 := by
  have hLength := congrArg List.length (h.routines .destructor)
  rw [length_map, length_map, h.destructor] at hLength
  have hAtMost : (Γ.types.classInfo c).destructor.toList.length ≤ 1 := by
    cases (Γ.types.classInfo c).destructor <;> simp
  have hPos : 0 < (d.methodsOf .destructor).length :=
    length_pos_iff.mpr (h.methodsOf_ne_nil (by decide))
  omega

theorem synthetic_iff (hKind : kind ≠ .method) :
    (∃ e ∈ d.methodsOf kind, e.synthetic = true) ↔ source.methodsOf kind = [] := by
  rcases h.kinds kind hKind with ⟨hSome, -, hPlain⟩ | ⟨hNone, e, hMade, hSynthetic, -⟩
  · refine ⟨?_, fun hNone => absurd hNone hSome⟩
    rintro ⟨e, he, hSynthetic⟩
    cases (hPlain e he).symm.trans hSynthetic
  · exact ⟨fun _ => hNone, fun _ => ⟨e, by simp [hMade], hSynthetic⟩⟩

/-- A routine that analysis has made takes no parameters, in the tree as well as in the registry. -/
theorem exists_made (hKind : kind ≠ .method) (hNone : source.methodsOf kind = []) :
    ∃ e m, d.methodsOf kind = [e] ∧ e.params = [] ∧ e.resolved = some m ∧
      (Γ.types.methodInfo m).params = [] := by
  rcases h.kinds kind hKind with ⟨hSome, -⟩ | ⟨-, e, hMade, -, hParams⟩
  · exact absurd hNone hSome
  · have he : .method e ∈ d.members := (mem_methodsOf_iff.mp (hMade ▸ mem_singleton_self e)).1
    obtain ⟨m, hm⟩ := h.accepted e he
    obtain ⟨-, hInfo⟩ := h.entered.records e he m hm
    refine ⟨e, m, hMade, hParams, hm, ?_⟩
    rw [hInfo, Env.routineInfo, hParams]
    rfl

/-- A class that is formed is provided with all it needs. Bodies are left out of this, they are looked at below. -/
theorem provided (hFound : Γ.types.FoundByName) : Provided Γ.types c source d where
  resolved := h.resolved
  lookup := by
    rw [← h.name, ← h.entered.name]
    exact hFound.lookupClass_name h.entered.registered
  routines := h.routines
  constructors := h.methodsOf_ne_nil (by decide)
  destructors := h.length_destructors
  destructor := h.destructor
  noted := by
    rw [← h.notes .constructor (by decide), ← h.notes .destructor (by decide)]
    exact ⟨congrArg (·.2.1) h.entered.page, congrArg (·.2.2.1) h.entered.page⟩
  synthetic := fun _ => h.synthetic_iff
  made := fun _ => h.exists_made

end Formed

end ClassDecl

/-! Calls of constructors in bodies. -/

namespace Env

/-- A call of a constructor is reported unless it is the first statement of a constructor. -/
theorem not_quiet_analyzeConstruct (env : Env) (line : Nat) (delegate : Delegate) (args : List Expr) :
    ¬ Quiet (env.analyzeConstruct false line delegate args).log := by
  rw [analyzeConstruct]
  split
  · exact Quiet.not_report_bind rfl
  · exact Quiet.not_report_bind rfl

end Env

namespace Stmt

/-- No constructor is called in the statements. -/
def Undelegated (ss : List Stmt) : Prop := ∀ s ∈ ss, s.isConstruct = false

theorem Undelegated.cons (hs : s.isConstruct = false) (h : Undelegated ss) : Undelegated (s :: ss) :=
  forall_mem_cons.mpr ⟨hs, h⟩

theorem Undelegated.append {more : List Stmt} (h : Undelegated ss) (h' : Undelegated more) :
    Undelegated (ss ++ more) :=
  forall_mem_append.mpr ⟨h, h'⟩

theorem Undelegated.single (hs : s.isConstruct = false) : Undelegated [s] :=
  .cons hs (forall_mem_nil _)

mutual

/-- A statement that is typed quietly calls no constructor, unless it may open the body of one. -/
theorem undelegated_analyze (inLoop first : Bool) : (s : Stmt) → (first = true → s.isConstruct = false) →
    (env : Env) → Yields (s.analyze inLoop first) env fun _ s' _ => Undelegated s'.parts
  | .expr _ _, _, _ | .declare _ _ _, _, _ | .breakLoop _, _, _ | .continueLoop _, _, _
  | .empty _, _, _ | .print _ _, _, _ => fun _ => .single rfl
  | .block _ body, _, env =>
    .bind_pure ((undelegated_analyzeAll inLoop body env).mono fun _ _ _ h => .cons rfl h)
  | .branch _ cond thenBranch elseBranch, _, env => by
    have hCond : Yields (condition .branch cond) env fun _ _ _ => True := fun _ => trivial
    refine Yields.bind hCond ?_
    intro _ _ env₁ _
    refine Yields.bind (undelegated_analyze inLoop false thenBranch (by rintro ⟨⟩) env₁) ?_
    intro _ then' env₂ hThen
    refine Yields.bind_pure ((undelegated_analyzeElse inLoop elseBranch env₂).mono ?_)
    exact fun _ _ _ hElse => .cons rfl (hThen.append hElse)
  | .loop _ cond body, _, env => by
    have hCond : Yields (condition .loop cond) env fun _ _ _ => True := fun _ => trivial
    refine Yields.bind hCond ?_
    intro _ _ env₁ _
    exact Yields.bind_pure ((undelegated_analyze true false body (by rintro ⟨⟩) env₁).mono
      fun _ _ _ hBody => .cons rfl hBody)
  | .ret line value _, _, env => by
    refine Yields.read fun _ => ?_
    obtain ⟨value', exitLabel, hEq⟩ := env.exists_analyzeReturn line
      (value.mapM fun e : Expr => e.analyze env).value
    rw [Logged.value_bind, hEq]
    exact .single rfl
  | .delete line target, _, env => by
    refine Yields.read fun _ => ?_
    rw [Logged.value_bind, env.value_analyzeDelete]
    exact .single rfl
  | .construct line delegate args _, hFirst, env => by
    cases first with
    | true => cases hFirst rfl
    | false =>
      refine Yields.read fun hQuiet => ?_
      rw [Logged.log_bind, Quiet.append_iff] at hQuiet
      exact absurd hQuiet.2 (env.not_quiet_analyzeConstruct line delegate _)

theorem undelegated_analyzeElse (inLoop : Bool) : (s : Option Stmt) → (env : Env) →
    Yields (analyzeElse inLoop s) env fun _ s' _ => Undelegated (partsOfElse s')
  | none, _ => fun _ => forall_mem_nil _
  | some s, env => .bind_pure (undelegated_analyze inLoop false s (by rintro ⟨⟩) env)

theorem undelegated_analyzeAll (inLoop : Bool) : (body : List Stmt) → (env : Env) →
    Yields (analyzeAll inLoop body) env fun _ body' _ => Undelegated (partsOfAll body')
  | [], _ => fun _ => forall_mem_nil _
  | s :: rest, env => by
    refine Yields.bind (undelegated_analyze inLoop false s (by rintro ⟨⟩) env) ?_
    intro _ s' env₁ hs
    exact Yields.bind_pure ((undelegated_analyzeAll inLoop rest env₁).mono
      fun _ _ _ hRest => hs.append hRest)

end

/-- A body that is not that of a constructor calls none. -/
theorem undelegated_analyzeBody (body : List Stmt) (env : Env) :
    Yields (analyzeBody false body) env fun _ body' _ => Undelegated (partsOfAll body') := by
  cases body with
  | nil => exact fun _ => forall_mem_nil _
  | cons s rest => exact undelegated_analyzeAll false (s :: rest) env

end Stmt

/-- The statements of a routine behind the call that opens the body of a constructor. -/
def MethodDecl.ownBody (e : MethodDecl) : List Stmt :=
  if e.kind = .constructor then e.body.tail else e.body

/-- Apart from the call that opens a constructor, a body that is accepted calls no constructor of its own
object. -/
theorem MethodDecl.undelegated_analyzeBody {m : MethodId} (hResolved : e.resolved = some m) (env : Env)
    (hQuiet : Quiet (e.analyzeBody env).log) :
    Stmt.Undelegated (Stmt.partsOfAll (e.analyzeBody env).value.1.ownBody) := by
  rw [analyzeBody_apply hResolved] at hQuiet ⊢
  simp only [ownBody] at hQuiet ⊢
  cases hBody : e.fullBody with
  | nil => simp [Stmt.analyzeBody, Stmt.partsOfAll, Stmt.Undelegated]
  | cons s rest =>
    simp only [hBody, Stmt.analyzeBody, log_bind, value_bind, pure_apply, Quiet.append_iff] at hQuiet ⊢
    have hRest := Stmt.undelegated_analyzeAll false rest _ hQuiet.2.1
    split
    · exact hRest
    · rename_i hKind
      have hFirst := Stmt.undelegated_analyze false (e.kind = .constructor) s (by simp [hKind]) _ hQuiet.1
      exact hFirst.append hRest

/-- Behind the openings of its constructors, a class that is typed quietly calls no constructor. -/
theorem ClassDecl.undelegated_analyzeBodies (hResolved : d.resolved = some c) (hAccepted : d.Accepted)
    (hQuiet : Quiet (d.analyzeBodies env).log) (he : .method e ∈ (d.analyzeBodies env).value.1.members) :
    Stmt.Undelegated (Stmt.partsOfAll e.ownBody) := by
  rw [analyzeBodies_apply hResolved] at hQuiet he
  simp only [value_mapM, log_mapM] at hQuiet he
  obtain ⟨⟨member, env'⟩, ht, hEq⟩ := mem_map.mp he
  have hMember := fst_mem_of_mem_turns ht
  have hQuiet' : Quiet (member.analyzeBody env').log :=
    fun report hReport => hQuiet report (mem_flatMap.mpr ⟨_, ht, hReport⟩)
  cases member with
  | field f => cases hEq
  | method e₀ =>
    obtain ⟨m, hm⟩ := hAccepted e₀ hMember
    simp only [Member.analyzeBody, log_bind, value_bind, pure_apply, append_nil,
      Member.method.injEq] at hQuiet' hEq
    rw [← hEq]
    exact e₀.undelegated_analyzeBody hm env' hQuiet'

/-! Whole programs. -/

/-- A member without its body. -/
def Member.bodiless : Member → Member
  | field f => field f
  | method e => method { e with body := [] }

namespace ClassDecl

/-- Apart from their bodies, the routines are known from the members without bodies. -/
theorem map_methodsOf {α : Type} (view : MethodDecl → α) (hView : ∀ e, view { e with body := [] } = view e)
    (h : d'.members.map Member.bodiless = d.members.map Member.bodiless) (kind : MethodKind) :
    (d'.methodsOf kind).map view = (d.methodsOf kind).map view := by
  have hBodiless : ∀ members : List Member, (members.filterMap (Member.methodOf? kind)).map view =
      ((members.map Member.bodiless).filterMap (Member.methodOf? kind)).map view := by
    intro members
    rw [map_filterMap, filterMap_map, map_filterMap]
    refine filterMap_congr ?_
    intro member _
    cases member with
    | field f => rfl
    | method e =>
      by_cases hKind : e.kind = kind
      · subst hKind
        simp [Member.methodOf?, Member.bodiless, hView]
      · simp [Member.methodOf?, Member.bodiless, hKind]
  rw [methodsOf, hBodiless, h, ← hBodiless, methodsOf]

/-- Typing bodies does not change what a class is provided with. -/
theorem Provided.of_bodies {r r' : Registry} (h : Provided r c source d) (hInterface : SameInterface r r')
    (hResolved : d'.resolved = d.resolved)
    (hMembers : d'.members.map Member.bodiless = d.members.map Member.bodiless) : Provided r' c source d' := by
  have hRoutines : ∀ kind, r'.routinesOf kind c = r.routinesOf kind c := by
    intro kind
    simp only [routinesOf, hInterface.classInfo, hInterface.kind]
  have hView := fun kind => map_methodsOf (fun e => (e.synthetic, e.params, e.resolved)) (fun _ => rfl)
    hMembers kind
  have hSynthetic : ∀ kind, (∃ e ∈ d'.methodsOf kind, e.synthetic = true) ↔
      ∃ e ∈ d.methodsOf kind, e.synthetic = true := by
    intro kind
    rw [← mem_map, map_methodsOf MethodDecl.synthetic (fun _ => rfl) hMembers, mem_map]
  constructor
  case resolved => exact hResolved.trans h.resolved
  case lookup => rw [lookupClass_of_outline hInterface.outline, h.lookup]
  case routines =>
    intro kind
    rw [hRoutines, h.routines, map_methodsOf MethodDecl.resolved (fun _ => rfl) hMembers]
  case constructors =>
    intro hNone
    have hLength := congrArg List.length (hView .constructor)
    rw [hNone, map_nil, length_map, length_nil] at hLength
    exact h.constructors (eq_nil_of_length_eq_zero hLength.symm)
  case destructors =>
    have hLength := congrArg List.length (hView .destructor)
    rw [length_map, length_map] at hLength
    exact hLength.trans h.destructors
  case destructor => rw [hRoutines, hInterface.classInfo, h.destructor]
  case noted =>
    rw [hInterface.classInfo]
    exact h.noted
  case synthetic =>
    intro kind hKind
    rw [hSynthetic, h.synthetic kind hKind]
  case made =>
    intro kind hKind hNone
    obtain ⟨e, m, hSingle, hParams, hm, hRecord⟩ := h.made kind hKind hNone
    have hMade := hView kind
    rw [hSingle] at hMade
    obtain ⟨e', hSingle', hEq⟩ := map_eq_singleton_iff.mp hMade
    simp only [Prod.mk.injEq] at hEq
    refine ⟨e', m, hSingle', hEq.2.1.trans hParams, hEq.2.2.trans hm, ?_⟩
    rw [hInterface.params, hRecord]

/-- Each constructor opens with the call of a constructor, of its own class if it is one by `this` and of
the parent if it is one by `super`, and apart from that no constructor is called. -/
structure Delegates (r : Registry) (c : ClassId) (d : ClassDecl) : Prop where
  opening : ∀ e ∈ d.methodsOf .constructor, ∃ line delegate args m,
    e.body.head? = some (.construct line delegate args (some m)) ∧ r.MayReach c delegate m
  rest : ∀ e, .method e ∈ d.members → Stmt.Undelegated (Stmt.partsOfAll e.ownBody)

end ClassDecl

namespace Program

variable {p : Program}

/-- Nothing in a program as it is read was made by analysis. -/
theorem synthetic_of_isFresh (hFresh : p.isFresh = true) (hd : d ∈ p.classes) (he : .method e ∈ d.members) :
    e.synthetic = false := by
  simp only [isFresh, ClassDecl.isFresh, Bool.and_eq_true, all_eq_true] at hFresh
  have hMember := (hFresh.1 d hd).2 _ he
  simp only [Member.isFresh, MethodDecl.isFresh, Bool.and_eq_true, Bool.not_eq_true'] at hMember
  exact hMember.1.2

/-- Once nothing terminal is reported, all classes are formed. -/
theorem formed_of_quiet (hFresh : p.isFresh = true) (hQuiet : Quiet (declareClasses p.classes {}).log) :
    List.Forall₂ (fun d d' => ∃ c, ClassDecl.Formed p.outset c d d') p.classes p.settledClasses := by
  have hDeclared : Declared (fun _ => True) p.classes p.settledClasses p.outset :=
    declared_of_quiet hFresh hQuiet
  have hSettles := settles hFresh
  rw [forall₂_iff_get]
  refine ⟨(completes_declareClasses p.classes {}).length_eq, fun i hi hi' => ?_⟩
  simp only [get_eq_getElem]
  have hMem := getElem_mem hi'
  obtain ⟨c, hLinked, hMembers⟩ := hDeclared.classes _ hMem
  obtain ⟨d, own, e₀, e, hd, hPlace, hOwn, hEntered, hComplete, -⟩ :=
    hSettles.completed i _ c (List.getElem?_eq_getElem hi') hLinked.resolved
  have hNumber : d.Stamps { d with resolved := some c } := ⟨rfl, by rintro ⟨⟩⟩
  have hStamps : d.Stamps own := hOwn ▸ hNumber.declareMembers e₀
  have hResolved : own.resolved = some c := hOwn ▸ ClassDecl.resolved_declareMembers _ e₀
  obtain rfl : p.classes[i] = d := Option.some.inj ((List.getElem?_eq_getElem hi).symm.trans hd.here)
  have hAccepted : p.settledClasses[i].Accepted := by
    intro e he
    obtain ⟨m, hm, -⟩ := hMembers _ he
    exact ⟨m, hm⟩
  refine ⟨c, hLinked.resolved, ?_, hSettles.ledger.entered _ hMem c hLinked.resolved, hAccepted, ?_⟩
  · obtain ⟨added, hErase, -⟩ := (hStamps.complete e).erase
    rw [hComplete]
    exact (congrArg ClassDecl.name hErase :)
  · rw [hComplete] at hAccepted ⊢
    exact fun kind => hEntered.methodsOf_complete hResolved hStamps
      (fun e he => synthetic_of_isFresh hFresh (getElem_mem hi) he) hAccepted

/-- A constructor opens with the call of one that it may reach. -/
theorem exists_opening {options : Options} {result : Compilation} (hFresh : p.isFresh = true)
    (hOk : p.compile options = .ok result) (hd : d ∈ p.analyzed.classes) (hResolved : d.resolved = some c)
    (he : e ∈ d.methodsOf .constructor) :
    ∃ line delegate args m, e.body.head? = some (.construct line delegate args (some m)) ∧
      p.env.types.MayReach c delegate m := by
  obtain ⟨hΓ, hTyped, -⟩ := typed_of_compile_eq_ok hFresh trivial (.trivial p) hOk
  obtain ⟨c', hResolved', -, hMembers⟩ := hTyped.1 d hd
  obtain rfl : c' = c := Option.some.inj (hResolved'.symm.trans hResolved)
  obtain ⟨hMember, hKind⟩ := ClassDecl.mem_methodsOf_iff.mp he
  have hMemberTyped := hMembers _ hMember
  obtain ⟨m, hm, -⟩ := hMemberTyped
  obtain ⟨delegate, m', hDelegation, -, hReach⟩ := MethodDecl.exists_delegation hΓ.settled
    (hMembers _ hMember) hKind hm (opens_analyzed hd hResolved hMember hKind hm)
  obtain ⟨e', line, args, rest, hEq, -, -, hBody⟩ := Member.delegation?_eq_some hDelegation
  cases hEq
  exact ⟨line, delegate, args, m', by rw [hBody, List.head?_cons], hReach⟩

/-- The classes of a program that compiles are provided with all they need, and their constructors delegate. In
one that does not compile, routines may have been refused or have stayed unresolved. -/
theorem compile_provides (options : Options) (p : Program) (hFresh : p.isFresh = true)
    (result : Compilation) (hOk : p.compile options = .ok result) :
    List.Forall₂ (fun d d' => ∃ c, ClassDecl.Provided p.env.types c d d' ∧
        ClassDecl.Delegates p.env.types c d') p.classes p.analyzed.classes ∧
      Stmt.Undelegated (Stmt.partsOfAll p.analyzed.main.body) := by
  have hQuiet := (compile_eq_ok hOk).1
  rw [diagnostics_eq hFresh, Quiet.append_iff, Quiet.append_iff] at hQuiet
  obtain ⟨hDeclared, hBodies, hMain⟩ := hQuiet
  have hInterface := sameInterface_env hFresh
  have hSettled := (typed_of_compile_eq_ok hFresh trivial (.trivial p) hOk).1.settled
  have hFound := (hSettled.lineal.of_outline hInterface.symm.outline).found
  refine ⟨?_, ?_⟩
  · have hFormed := formed_of_quiet hFresh hDeclared
    rw [analyzed_classes hFresh, forall₂_map_right_iff]
    rw [forall₂_iff_get] at hFormed ⊢
    refine ⟨hFormed.1, fun i hi hi' => ?_⟩
    obtain ⟨c, hFormed⟩ := hFormed.2 i hi hi'
    have hMem := get_mem p.settledClasses ⟨i, hi'⟩
    generalize p.settledClasses.get ⟨i, hi'⟩ = d at hFormed hMem
    have hAnalyzed : (d.analyzeBodies p.outset).value.1 ∈ p.analyzed.classes := by
      rw [analyzed_classes hFresh]
      exact mem_map_of_mem hMem
    have hQuiet : Quiet (d.analyzeBodies p.outset).log :=
      fun report hReport => hBodies report (mem_flatMap.mpr ⟨d, hMem, hReport⟩)
    have hProvided := (hFormed.provided hFound).of_bodies hInterface
      (congrArg Prod.fst (d.roster_analyzeBodies p.outset)) (d.map_analyzeBodies _ (fun _ _ => rfl) _)
    exact ⟨c, hProvided, fun e he => exists_opening hFresh hOk hAnalyzed hProvided.resolved he,
      fun e he => ClassDecl.undelegated_analyzeBodies hFormed.resolved hFormed.accepted hQuiet he⟩
  · rw [MainBlock.analyze_apply] at hMain
    rw [analyzed_main hFresh, MainBlock.analyze_apply]
    exact Stmt.undelegated_analyzeBody p.main.body _ hMain

/-- A class with no routine, and one below it that declares two constructors, of which one calls the
other, and a destructor. -/
def sparse : Program where
  classes := [
    { line := 1, name := "A" },
    { line := 2, name := "B", parent := some "A", members := [
      .method {
        line := 3, kind := .constructor, name := "B", params := [⟨3, .int, "n"⟩]
        body := [.print 4 (.var 4 "n" none)] },
      .method {
        line := 6, kind := .constructor, name := "B"
        body := [.construct 7 .this [.int 7 1] none, .empty 8] },
      .method { line := 10, kind := .destructor, name := "~B" }] }]
  main := ⟨12, [.delete 13 (.new 13 "B" [] none none)]⟩

theorem compile_provides_sparse : sparse.isFresh = true ∧
    ∃ result a b, sparse.compile {} = .ok result ∧ sparse.analyzed.classes = [a, b] ∧
      (∃ e m, a.methodsOf .constructor = [e] ∧ e.params = [] ∧ e.resolved = some m ∧
        (sparse.env.types.methodInfo m).params = []) ∧
      (∃ e ∈ a.methodsOf .destructor, e.synthetic = true) ∧
      (¬ ∃ e ∈ b.methodsOf .constructor, e.synthetic = true) ∧
      (sparse.env.types.routinesOf .constructor ⟨2⟩).length = (b.methodsOf .constructor).length ∧
      (b.methodsOf .destructor).length = 1 ∧
      ∀ e ∈ b.methodsOf .constructor, ∃ line delegate args m,
        e.body.head? = some (.construct line delegate args (some m)) ∧
          sparse.env.types.MayReach ⟨2⟩ delegate m := by
  have hFresh : sparse.isFresh = true := by decide
  have hSome : (sparse.compile {}).toOption.isSome = true := by decide +kernel
  have hLookup : sparse.env.types.lookupClass "B" = some ⟨2⟩ := by decide +kernel
  obtain ⟨result, hOk, -⟩ := exists_assembly hSome
  obtain ⟨hClasses, -⟩ := compile_provides {} sparse hFresh result hOk
  obtain ⟨a, rest, ⟨_, hA, -⟩, hRest, hEq⟩ := forall₂_cons_left_iff.mp hClasses
  obtain ⟨b, none, ⟨c, hB, hDelegates⟩, hNone, rfl⟩ := forall₂_cons_left_iff.mp hRest
  obtain rfl := forall₂_nil_left_iff.mp hNone
  obtain rfl : c = ⟨2⟩ := Option.some.inj (hB.lookup.symm.trans hLookup)
  have hCount := congrArg List.length (hB.routines .constructor)
  rw [length_map, length_map] at hCount
  refine ⟨hFresh, result, a, b, hOk, hEq, hA.made .constructor (by decide) (by decide),
    (hA.synthetic .destructor (by decide)).mpr (by decide), ?_, hCount, hB.destructors, hDelegates.opening⟩
  rw [hB.synthetic .constructor (by decide)]
  decide

end Program
end TLang
