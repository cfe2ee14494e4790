import TLang.Proofs.Routines

/-! Construction of objects. The body of every constructor below the root opens with the call of
another one, of the same class or of the parent. Following these calls leads to the constructor of
the root, unless the constructors of some class call each other in a circle. -/
namespace TLang

open Registry Analysis List

variable {cls : ClassDecl} {member : Member} {i : Delegation} {r : Registry} {delegate : Delegate}
  {path : List MethodId} {m m' : MethodId} {c : ClassId} {d : MethodDecl}

namespace Analysis

/-- Each result of a traversal is that of one step. -/
theorem exists_of_mem_mapM {α β : Type} {f : α → Analysis β} {as : List α} {env : Env} {b : β}
    (hb : b ∈ ((as.mapM f) env).value.1) : ∃ a ∈ as, ∃ env', b = (f a env').value.1 := by
  induction as generalizing env with
  | nil => cases hb
  | cons a as ih =>
    rw [mapM_cons] at hb
    simp only [value_bind, pure_apply, mem_cons] at hb
    rcases hb with rfl | hb
    · exact ⟨a, mem_cons_self, env, rfl⟩
    · obtain ⟨a', ha', env', hEq⟩ := ih hb
      exact ⟨a', mem_cons_of_mem _ ha', env', hEq⟩

end Analysis

/-- The body opens with the call of a constructor, which is not resolved to `m`. -/
def Stmt.Opens (m : MethodId) (body : List Stmt) : Prop :=
  ∃ line delegate args constructor rest,
    body = .construct line delegate args constructor :: rest ∧ constructor ≠ some m

namespace Env

variable {env : Env} {line : Nat} {args : List Expr}

/-- A constructor never hands over to itself. -/
theorem ne_of_resolveDelegate {current : MethodId} {resolution : Resolution}
    (h : (env.resolveDelegate line delegate args current).value = some resolution) :
    resolution.method ≠ current := by
  simp only [resolveDelegate] at h
  split at h
  case h_1 => cases h
  case h_2 =>
    split at h
    case isTrue => cases h
    case isFalse =>
      split at h
      case h_2 => cases h
      case h_1 =>
        split at h
        case isTrue => cases h
        case isFalse hne =>
          cases h
          exact hne

/-- A constructor is never resolved to itself. If nothing else fits, the call is reported and stays unresolved. -/
theorem analyzeConstruct_ne (hMethod : env.position.inMethod = some m) (first : Bool) (line : Nat)
    (delegate : Delegate) (args : List Expr) :
    ∃ args' constructor, (env.analyzeConstruct first line delegate args).value =
      .construct line delegate args' constructor ∧ constructor ≠ some m := by
  simp only [analyzeConstruct]
  split
  case h_1 => exact ⟨args, none, rfl, by simp⟩
  case h_2 current hCurrent =>
    split
    case isFalse => exact ⟨args, none, rfl, by simp⟩
    case isTrue =>
      rw [Logged.value_bind]
      cases hResolve : (env.resolveDelegate line delegate args current).value with
      | none => exact ⟨args, none, rfl, by simp⟩
      | some resolution =>
        refine ⟨_, _, rfl, ?_⟩
        intro hEq
        have hSame : current = m := by
          obtain ⟨hSome, -⟩ := Option.filter_eq_some_iff.mp hCurrent
          obtain ⟨_, -, hSome⟩ := Option.bind_eq_some_iff.mp hSome
          exact Option.some.inj (hSome.symm.trans hMethod)
        rw [hSame] at hResolve
        exact ne_of_resolveDelegate hResolve (Option.some.inj hEq)

end Env

namespace MethodDecl

/-- A constructor that does not open with the call of another one gets such a call. -/
theorem fullBody_of_constructor (hKind : d.kind = .constructor) : ∃ line delegate args constructor rest,
      d.fullBody = .construct line delegate args constructor :: rest := by
  rw [fullBody]
  split
  · exact ⟨_, _, _, _, _, rfl⟩
  · rename_i hOpens
    cases hBody : d.body with
    | nil => simp [hKind, hBody] at hOpens
    | cons s rest =>
      cases s with
      | construct => exact ⟨_, _, _, _, _, rfl⟩
      | _ => simp [hKind, hBody, Stmt.isConstruct] at hOpens

/-- A typed constructor opens with a call of a constructor other than itself, since a missing one is supplied
before it is typed. -/
theorem opens_analyzeBody (hResolved : d.resolved = some m) (hKind : d.kind = .constructor)
    (env : Env) : Stmt.Opens m (d.analyzeBody env).value.1.body := by
  obtain ⟨line, delegate, args, constructor, rest, hBody⟩ := fullBody_of_constructor hKind
  let inside := env.updatePosition (·.enterMethod m)
  have hInside : inside.position.inMethod = some m := rfl
  obtain ⟨args', constructor', hFirst, hne⟩ := Env.analyzeConstruct_ne hInside true line delegate
    (Expr.analyzeArgs inside args).value
  refine ⟨line, delegate, args', constructor', (Stmt.analyzeAll false rest inside).value.1, ?_, hne⟩
  rw [← hFirst]
  simp [analyzeBody, hResolved, hBody, Stmt.analyzeBody, hKind, Stmt.analyze, inside]

end MethodDecl

/-- In the analyzed tree, every constructor opens with the call of another one. -/
theorem Program.opens_analyzed {p : Program} (hCls : cls ∈ p.analyzed.classes)
    (hResolved : cls.resolved = some c) (hd : .method d ∈ cls.members) (hKind : d.kind = .constructor)
    (hm : d.resolved = some m) : Stmt.Opens m d.body := by
  obtain ⟨source, -, env, rfl⟩ := exists_of_mem_mapM hCls
  have hSource : source.resolved = some c :=
    (congrArg Prod.fst (source.roster_analyzeBodies env)).symm.trans hResolved
  simp only [ClassDecl.analyzeBodies, hSource, value_bind, modify_apply, pure_apply] at hd
  obtain ⟨member, -, env', hEq⟩ := exists_of_mem_mapM hd
  cases member with
  | field => cases hEq
  | method decl =>
    have hDecl : d = (decl.analyzeBody env').value.1 := by
      simpa [Member.analyzeBody] using hEq
    subst hDecl
    cases hOld : decl.resolved with
    | none =>
      simp only [MethodDecl.analyzeBody, hOld, pure_apply] at hm
      cases hm
    | some m' =>
      simp only [MethodDecl.analyzeBody, hOld, value_bind, modify_apply, pure_apply] at hm hKind
      cases hm
      exact decl.opens_analyzeBody hOld hKind env'

/-- The call of a constructor at the start of another one. -/
structure Delegation where
  delegate : Delegate
  caller : MethodId
  callee : MethodId
deriving DecidableEq

/-- How a member hands over to a constructor. -/
def Member.delegation? : Member → Option Delegation
  | field _ => none
  | method d =>
    match d.kind, d.resolved, d.body with
    | .constructor, some m, .construct _ delegate _ (some m') :: _ => some ⟨delegate, m, m'⟩
    | _, _, _ => none

namespace Program

/-- How the constructors of a program hand over to each other. -/
def delegations (p : Program) : List Delegation :=
  p.classes.flatMap fun d => d.members.filterMap Member.delegation?

/-- The body of the constructor `m` opens with the call of the constructor `m'`. -/
def Invokes (p : Program) (delegate : Delegate) (m m' : MethodId) : Prop :=
  ⟨delegate, m, m'⟩ ∈ p.delegations

instance (p : Program) (delegate : Delegate) (m m' : MethodId) : Decidable (p.Invokes delegate m m') :=
  inferInstanceAs (Decidable (_ ∈ p.delegations))

/-- The same, by either kind of call. -/
def HandsOver (p : Program) (m m' : MethodId) : Prop := ∃ delegate, p.Invokes delegate m m'

instance (p : Program) (m m' : MethodId) : Decidable (p.HandsOver m m') :=
  decidable_of_iff (p.Invokes .this m m' ∨ p.Invokes .super m m') (by
    constructor
    · rintro (hCall | hCall)
      · exact ⟨_, hCall⟩
      · exact ⟨_, hCall⟩
    · rintro ⟨delegate, hCall⟩
      cases delegate with
      | this => exact .inl hCall
      | super => exact .inr hCall)

/-- Constructors, each of which opens with the call of the next one, up to that of the root. -/
inductive Constructs (p : Program) : MethodId → List MethodId → Prop where
  | root : Constructs p ⟨0⟩ [⟨0⟩]
  | next {m m' : MethodId} {path : List MethodId} (hCall : p.HandsOver m m')
      (above : Constructs p m' path) : Constructs p m (m :: path)

end Program

theorem Member.delegation?_eq_some (h : member.delegation? = some i) : ∃ d line args rest, member = .method d ∧
      d.kind = .constructor ∧ d.resolved = some i.caller ∧
      d.body = .construct line i.delegate args (some i.callee) :: rest := by
  cases member with
  | field => cases h
  | method d =>
    simp only [delegation?] at h
    split at h
    · rename_i line delegate args m' rest hKind hResolved hBody
      cases h
      exact ⟨d, line, args, rest, rfl, hKind, hResolved, hBody⟩
    · cases h

theorem Member.routine?_of_delegation? (h : member.delegation? = some i) :
    member.routine? = some i.caller := by
  obtain ⟨d, -, -, -, rfl, -, hResolved, -⟩ := delegation?_eq_some h
  exact hResolved

/-- Each constructor hands over once. -/
theorem ClassDecl.callers_sublist (d : ClassDecl) :
    ((d.members.filterMap Member.delegation?).map Delegation.caller).Sublist d.routines := by
  rw [routines]
  induction d.members with
  | nil => exact .slnil
  | cons member members ih =>
    rw [filterMap_cons, filterMap_cons]
    cases hDelegation : member.delegation? with
    | none =>
      cases member.routine? with
      | none => exact ih
      | some m => exact ih.cons m
    | some i =>
      rw [Member.routine?_of_delegation? hDelegation]
      exact ih.cons_cons i.caller

theorem Program.callers_sublist (p : Program) :
    (p.delegations.map Delegation.caller).Sublist (p.classes.flatMap ClassDecl.routines) := by
  rw [delegations]
  induction p.classes with
  | nil => exact .slnil
  | cons d ds ih =>
    rw [flatMap_cons, flatMap_cons, map_append]
    exact d.callers_sublist.append ih

namespace Registry

/-- The class has the constructor. -/
def IsConstructor (r : Registry) (c : ClassId) (m : MethodId) : Prop :=
  m ∈ (r.classInfo c).methods ∧ (r.methodInfo m).kind = .constructor

instance (r : Registry) (c : ClassId) (m : MethodId) : Decidable (r.IsConstructor c m) :=
  inferInstanceAs (Decidable (_ ∧ _))

/-- How many classes there are from that of the constructor up to the root. -/
def depth (r : Registry) (m : MethodId) : Nat := (r.chain (r.methodInfo m).owner).length

/-- A constructor of class `c` may hand over to this one. -/
def MayReach (r : Registry) (c : ClassId) : Delegate → MethodId → Prop
  | .this, m => r.IsConstructor c m
  | .super, m => ∃ parent, r.parent c = some parent ∧ r.IsConstructor parent m

end Registry

/-- What is known of the constructors of a program. Each of them hands over to one other, apart from
that of the root. -/
structure Program.Chained (p : Program) (r : Registry) : Prop where
  root : ∀ m, r.IsConstructor object m ↔ m = ⟨0⟩
  exists_callee : ∀ c m, r.IsConstructor c m → c ≠ object → ∃ m', p.HandsOver m m'
  callee : ∀ delegate m m', p.Invokes delegate m m' →
    m' ≠ m ∧ ∃ c, c ≠ object ∧ r.IsConstructor c m ∧ r.MayReach c delegate m'
  unique : ∀ delegate delegate' m m' m'', p.Invokes delegate m m' → p.Invokes delegate' m m'' →
    delegate = delegate' ∧ m' = m''

/-- The root has one constructor. -/
theorem Enrolled.isConstructor_object {ds : List ClassDecl} (h : Enrolled ds r) (m : MethodId) :
    r.IsConstructor object m ↔ m = ⟨0⟩ := by
  have hKind : ∀ m ∈ (initial.classInfo object).methods,
      (r.methodInfo m).kind = (initial.methodInfo m).kind := by
    intro m hm
    rw [← (h.rootMethods m hm).2]
    rfl
  have hOnly : ∀ m ∈ (initial.classInfo object).methods,
      (initial.methodInfo m).kind = .constructor → m = ⟨0⟩ := by decide
  rw [IsConstructor, h.root]
  constructor
  · rintro ⟨hm, hConstructor⟩
    exact hOnly m hm ((hKind m hm).symm.trans hConstructor)
  · rintro rfl
    have hm : (⟨0⟩ : MethodId) ∈ (initial.classInfo object).methods := by decide
    exact ⟨hm, hKind _ hm⟩

section

variable {names : String → Prop} {Γ : Env}

/-- A typed constructor that opens with the call of another one hands over to one that it may reach. -/
theorem MethodDecl.exists_delegation (hTypes : Γ.types.Settled names)
    (hTyped : Member.Typed Γ (Γ.Selects names) c (.method d)) (hKind : d.kind = .constructor)
    (hm : d.resolved = some m) (hOpens : Stmt.Opens m d.body) :
    ∃ delegate m', (Member.method d).delegation? = some ⟨delegate, m, m'⟩ ∧ m' ≠ m ∧
      Γ.types.MayReach c delegate m' := by
  obtain ⟨line, delegate, args, constructor, rest, hBody, hne⟩ := hOpens
  obtain ⟨m₀, hResolved, hRecords, hBodyTyped⟩ := hTyped
  obtain rfl : m₀ = m := Option.some.inj (hResolved.symm.trans hm)
  have hOwner := ((hTypes.coherent c).routine m₀ hRecords.mem).owner
  rw [hBody] at hBodyTyped
  obtain ⟨⟨c', m', hDelegates, rfl, -, -, exact, hResolve, -⟩, -⟩ := hBodyTyped
  obtain ⟨a, ha, hMem, hKind', -⟩ := hTypes.coherent.indexed.resolveMethod_eq_some hResolve
  obtain rfl : a = c' := mem_singleton.mp ha
  refine ⟨delegate, m', ?_, fun hEq => hne (congrArg some hEq), ?_⟩
  · simp only [Member.delegation?, hKind, hm, hBody]
  · cases delegate with
    | this =>
      have hSame : some (Γ.types.methodInfo m₀).owner = some a := hDelegates
      rw [hOwner, Option.some.injEq] at hSame
      exact hSame ▸ ⟨hMem, hKind'⟩
    | super =>
      obtain ⟨owner, hSame, hParent⟩ := hDelegates
      have hSame : some (Γ.types.methodInfo m₀).owner = some owner := hSame
      rw [hOwner, Option.some.injEq] at hSame
      exact ⟨a, hSame ▸ hParent, hMem, hKind'⟩

end

namespace Program

variable {p : Program}

theorem invokes_iff : p.Invokes delegate m m' ↔
    ∃ cls ∈ p.classes, ∃ member ∈ cls.members, member.delegation? = some ⟨delegate, m, m'⟩ := by
  simp [Invokes, delegations]

/-- No constructor hands over twice. -/
theorem nodup_callers {names : String → Prop} (hEnrolled : Enrolled p.classes r) (hCoherent : r.Coherent names) :
    (p.delegations.map Delegation.caller).Nodup := by
  have hRoutines := hCoherent.nodup_routines
  rw [hEnrolled.routines_eq] at hRoutines
  exact (nodup_append.mp hRoutines).2.1.sublist p.callers_sublist

variable {options : Options} {result : Compilation} (hFresh : p.isFresh = true)
  (hOk : p.compile options = .ok result)

include hFresh hOk

/-- A constructor in the tree of a program that compiles. -/
theorem exists_delegation (hCls : cls ∈ p.analyzed.classes) (hd : .method d ∈ cls.members)
    (hKind : d.kind = .constructor) (hm : d.resolved = some m) :
    ∃ c delegate m', c ≠ object ∧ p.env.types.IsConstructor c m ∧
      (Member.method d).delegation? = some ⟨delegate, m, m'⟩ ∧ m' ≠ m ∧
      p.env.types.MayReach c delegate m' := by
  obtain ⟨hΓ, hTyped, -⟩ := typed_of_compile_eq_ok hFresh trivial (.trivial p) hOk
  obtain ⟨c, hResolved, hBelow, hMembers⟩ := hTyped.1 cls hCls
  have hMember := hMembers _ hd
  obtain ⟨delegate, m', hDelegation, hne, hReach⟩ := MethodDecl.exists_delegation hΓ.settled hMember
    hKind hm (opens_analyzed hCls hResolved hd hKind hm)
  obtain ⟨m₀, hResolved', hRecords, -⟩ := hMember
  obtain rfl : m₀ = m := Option.some.inj (hResolved'.symm.trans hm)
  have hConstructor : p.env.types.IsConstructor c m₀ :=
    ⟨hRecords.mem, hRecords.kind.trans hKind⟩
  exact ⟨c, delegate, m', hBelow, hConstructor, hDelegation, hne, hReach⟩

/-- The constructors of a program that compiles. -/
theorem chained_of_compile_eq_ok : p.analyzed.Chained p.env.types := by
  obtain ⟨hΓ, hTyped, -⟩ := typed_of_compile_eq_ok hFresh trivial (.trivial p) hOk
  have hEnrolled := enrolled hFresh (compile_eq_ok hOk).1
  refine ⟨hEnrolled.isConstructor_object, ?_, ?_, ?_⟩
  · intro c m hm hBelow
    have hc := Registry.registered_of_mem hm.1
    obtain ⟨cls, hCls, hResolved⟩ := hEnrolled.exists_decl hc hBelow
    obtain ⟨hMem, hKind⟩ := hm
    rw [← hEnrolled.routines cls hCls c hResolved] at hMem
    obtain ⟨member, hMember, hm⟩ := mem_filterMap.mp hMem
    cases member with
    | field => cases hm
    | method d =>
      obtain ⟨c', -, -, hMembers⟩ := hTyped.1 cls hCls
      obtain ⟨m₀, hResolved', hRecords, -⟩ := hMembers _ hMember
      obtain rfl : m₀ = m := Option.some.inj (hResolved'.symm.trans hm)
      obtain ⟨-, delegate, m', -, -, hDelegation, -⟩ :=
        exists_delegation hFresh hOk hCls hMember (hRecords.kind.symm.trans hKind) hm
      exact ⟨m', delegate, invokes_iff.mpr ⟨cls, hCls, _, hMember, hDelegation⟩⟩
  · intro delegate m m' hInvokes
    obtain ⟨cls, hCls, member, hMember, hDelegation⟩ := invokes_iff.mp hInvokes
    obtain ⟨d, -, -, -, rfl, hKind, hm, -⟩ := Member.delegation?_eq_some hDelegation
    obtain ⟨c, delegate', m'', hBelow, hConstructor, hDelegation', hne, hReach⟩ :=
      exists_delegation hFresh hOk hCls hMember hKind hm
    cases hDelegation.symm.trans hDelegation'
    exact ⟨hne, c, hBelow, hConstructor, hReach⟩
  · intro delegate delegate' m m' m'' hInvokes hInvokes'
    have hSame := inj_on_of_nodup_map (nodup_callers hEnrolled hΓ.settled.coherent) hInvokes
      hInvokes' rfl
    cases hSame
    exact ⟨rfl, rfl⟩

end Program

namespace Program.Chained

open Relation

variable {names : String → Prop} {p : Program} (h : p.Chained r)

include h

theorem eq_of_handsOver {m'' : MethodId} (hCall : p.HandsOver m m') (hCall' : p.HandsOver m m'') :
    m' = m'' := by
  obtain ⟨delegate, hCall⟩ := hCall
  obtain ⟨delegate', hCall'⟩ := hCall'
  exact (h.unique delegate delegate' m m' m'' hCall hCall').2

/-- The constructor of the root hands over to none. -/
theorem not_handsOver_root (hCoherent : r.Coherent names) (m : MethodId) : ¬ p.HandsOver ⟨0⟩ m := by
  rintro ⟨delegate, hCall⟩
  obtain ⟨-, c, hBelow, hConstructor, -⟩ := h.callee delegate ⟨0⟩ m hCall
  have hRoot := (h.root ⟨0⟩).mpr rfl
  have hOwner := ((hCoherent c).routine _ hConstructor.1).owner
  rw [((hCoherent object).routine _ hRoot.1).owner] at hOwner
  exact hBelow hOwner.symm

/-- Constructors hand over to constructors. -/
theorem isConstructor_of_handsOver (hCall : p.HandsOver m m') : ∃ c, r.IsConstructor c m' := by
  obtain ⟨delegate, hCall⟩ := hCall
  obtain ⟨-, c, -, -, hReach⟩ := h.callee delegate m m' hCall
  cases delegate with
  | this => exact ⟨c, hReach⟩
  | super =>
    obtain ⟨parent, -, hConstructor⟩ := hReach
    exact ⟨parent, hConstructor⟩

theorem isConstructor_of_reaches (hm : r.IsConstructor c m) (hReach : ReflTransGen p.HandsOver m m') :
    ∃ c', r.IsConstructor c' m' := by
  rcases ReflTransGen.cases_tail hReach with rfl | ⟨_, -, hCall⟩
  · exact ⟨c, hm⟩
  · exact h.isConstructor_of_handsOver hCall

/-- Only the call of the parent's constructor leads to another class. -/
theorem depth_of_invokes (hLineal : r.Lineal) (hCoherent : r.Coherent names) (hCall : p.Invokes delegate m m') :
    r.depth m = r.depth m' + if delegate = .super then 1 else 0 := by
  obtain ⟨-, c, -, hConstructor, hReach⟩ := h.callee delegate m m' hCall
  have hOwner : ∀ {c : ClassId} {m : MethodId}, r.IsConstructor c m →
      r.depth m = (r.chain c).length := by
    intro c m hm
    rw [depth, ((hCoherent c).routine m hm.1).owner]
  cases delegate with
  | this =>
    have hReach : r.IsConstructor c m' := hReach
    rw [hOwner hConstructor, hOwner hReach]
    rfl
  | super =>
    obtain ⟨parent, hParent, hReach⟩ := hReach
    rw [hOwner hConstructor, hOwner hReach, hLineal.acyclic.chain_of_parent hParent]
    rfl

/-- Along calls the depth never grows, and where it stays the same the class does. -/
theorem depth_of_calls (hLineal : r.Lineal) (hCoherent : r.Coherent names) (hCalls : TransGen p.HandsOver m m') :
    r.depth m' ≤ r.depth m ∧ (r.depth m' = r.depth m → TransGen (p.Invokes .this) m m') := by
  induction hCalls with
  | single hCall =>
    obtain ⟨delegate, hCall⟩ := hCall
    have hDepth := h.depth_of_invokes hLineal hCoherent hCall
    cases delegate with
    | this => exact ⟨by omega, fun _ => .single hCall⟩
    | super =>
      rw [if_pos rfl] at hDepth
      exact ⟨by omega, by omega⟩
  | tail _ hCall ih =>
    obtain ⟨delegate, hCall⟩ := hCall
    have hDepth := h.depth_of_invokes hLineal hCoherent hCall
    obtain ⟨hLe, hSame⟩ := ih
    cases delegate with
    | this =>
      rw [if_neg (by decide)] at hDepth
      exact ⟨by omega, fun hEq => (hSame (by omega)).tail hCall⟩
    | super =>
      rw [if_pos rfl] at hDepth
      exact ⟨by omega, by omega⟩

/-- Whatever a constructor that reaches the root hands over to reaches the root, too. -/
theorem constructs_of_reaches (hCoherent : r.Coherent names) (hPath : p.Constructs m path)
    (hReach : ReflTransGen p.HandsOver m m') : ∃ path', p.Constructs m' path' := by
  induction hReach with
  | refl => exact ⟨path, hPath⟩
  | tail _ hCall ih =>
    obtain ⟨path', hPath'⟩ := ih
    cases hPath' with
    | root => exact absurd hCall (h.not_handsOver_root hCoherent _)
    | next hCall' above => exact ⟨_, h.eq_of_handsOver hCall hCall' ▸ above⟩

/-- A constructor that reaches the root is on no circle. -/
theorem not_cycle_of_constructs (hCoherent : r.Coherent names) (hPath : p.Constructs m path) :
    ¬ TransGen p.HandsOver m m := by
  induction hPath with
  | root =>
    intro hCycle
    obtain ⟨m', hCall, -⟩ := TransGen.head'_iff.mp hCycle
    exact h.not_handsOver_root hCoherent m' hCall
  | next hCall above ih =>
    intro hCycle
    obtain ⟨m', hCall', hBack⟩ := TransGen.head'_iff.mp hCycle
    obtain rfl := h.eq_of_handsOver hCall hCall'
    exact ih (.tail' hBack hCall)

/-- There are finitely many constructors, so a walk that never closes a circle comes to an end. -/
theorem wellFounded_handsOver (hm : r.IsConstructor c m)
    (hNone : ∀ m', ReflTransGen p.HandsOver m m' → ¬ TransGen p.HandsOver m' m') :
    WellFounded fun a b : { m' // ReflTransGen p.HandsOver m m' } =>
      TransGen p.HandsOver b.1 a.1 := by
  have hFinite : { m' | ReflTransGen p.HandsOver m m' }.Finite := by
    apply (finite_toSet r.routines).subset
    intro m' hReach
    obtain ⟨c', hConstructor⟩ := h.isConstructor_of_reaches hm hReach
    exact mem_routines.mpr ⟨c', hConstructor.1⟩
  have : Finite { m' // ReflTransGen p.HandsOver m m' } := hFinite
  have : IsTrans { m' // ReflTransGen p.HandsOver m m' } fun a b => TransGen p.HandsOver b.1 a.1 :=
    ⟨fun _ _ _ hab hbc => hbc.trans hab⟩
  have : Std.Irrefl fun a b : { m' // ReflTransGen p.HandsOver m m' } =>
      TransGen p.HandsOver b.1 a.1 := ⟨fun a hCycle => hNone a.1 a.2 hCycle⟩
  exact Finite.wellFounded_of_trans_of_irrefl _

/-- A constructor from which no circle is reached reaches the root. -/
theorem exists_constructs (hm : r.IsConstructor c m)
    (hNone : ∀ m', ReflTransGen p.HandsOver m m' → ¬ TransGen p.HandsOver m' m') :
    ∃ path, p.Constructs m path ∧ path.Nodup := by
  have hAll : ∀ a : { m' // ReflTransGen p.HandsOver m m' }, ∃ path, p.Constructs a.1 path ∧
      path.Nodup ∧ ∀ m' ∈ path, ReflTransGen p.HandsOver a.1 m' := by
    intro a
    induction a using (h.wellFounded_handsOver hm hNone).induction with
    | _ a ih =>
      obtain ⟨c', hConstructor⟩ := h.isConstructor_of_reaches hm a.2
      by_cases hRoot : c' = object
      · rw [hRoot, h.root] at hConstructor
        rw [hConstructor]
        exact ⟨_, .root, nodup_singleton _, by simp [ReflTransGen.refl]⟩
      · obtain ⟨m', hCall⟩ := h.exists_callee c' a.1 hConstructor hRoot
        obtain ⟨path, hPath, hNodup, hReach⟩ := ih ⟨m', a.2.tail hCall⟩ (.single hCall)
        refine ⟨a.1 :: path, .next hCall hPath, nodup_cons.mpr ⟨?_, hNodup⟩, ?_⟩
        · -- If it came up again, it would be on a circle.
          intro hMem
          exact hNone a.1 a.2 (.head' hCall (hReach a.1 hMem))
        · intro m'' hMem
          rcases mem_cons.mp hMem with rfl | hMem
          · exact .refl
          · exact .head hCall (hReach m'' hMem)
  obtain ⟨path, hPath, hNodup, -⟩ := hAll ⟨m, .refl⟩
  exact ⟨path, hPath, hNodup⟩

end Program.Chained

namespace Program

open Relation

/-- The construction of objects in a program that compiles. Each constructor but that of the root
opens with the call of exactly one constructor, another one of its class or one of the parent.
Following these calls is a path to the constructor of the root, on which none comes up twice, just
if it does not lead to constructors of one class that call each other in a circle. -/
theorem construction_ends (options : Options) (p : Program) (hFresh : p.isFresh = true)
    (result : Compilation) (hOk : p.compile options = .ok result) :
    p.analyzed.Chained p.env.types ∧ (∀ m, ¬ p.analyzed.HandsOver ⟨0⟩ m) ∧
      ∀ c m, p.env.types.IsConstructor c m → ((∃ path, p.analyzed.Constructs m path ∧ path.Nodup) ↔
          ¬ ∃ m', ReflTransGen p.analyzed.HandsOver m m' ∧
            TransGen (p.analyzed.Invokes .this) m' m') := by
  obtain ⟨hΓ, -, -⟩ := typed_of_compile_eq_ok hFresh trivial (.trivial p) hOk
  have hCoherent := hΓ.settled.coherent
  have hChained := chained_of_compile_eq_ok hFresh hOk
  refine ⟨hChained, hChained.not_handsOver_root hCoherent, ?_⟩
  intro c m hm
  constructor
  · rintro ⟨path, hPath, -⟩ ⟨m', hReach, hCycle⟩
    obtain ⟨path', hPath'⟩ := hChained.constructs_of_reaches hCoherent hPath hReach
    apply hChained.not_cycle_of_constructs hCoherent hPath'
    exact hCycle.lift id fun _ _ hCall => ⟨.this, hCall⟩
  · intro hNone
    apply hChained.exists_constructs hm
    intro m' hReach hCycle
    exact hNone ⟨m', hReach, (hChained.depth_of_calls hΓ.settled.lineal hCoherent hCycle).2 rfl⟩

/-- Two classes with two constructors each, of which one calls the other. -/
def relayed : Program where
  classes := [
    { line := 1, name := "A", members := [
      .method {
        line := 2, kind := .constructor, name := "A"
        body := [.construct 3 .this [.int 3 1] none] },
      .method { line := 4, kind := .constructor, name := "A", params := [⟨4, .int, "n"⟩] }] },
    { line := 6, name := "B", parent := some "A", members := [
      .method {
        line := 7, kind := .constructor, name := "B", params := [⟨7, .int, "n"⟩]
        body := [.construct 8 .this [] none] },
      .method { line := 9, kind := .constructor, name := "B" }] }]
  main := ⟨11, [.delete 12 (.new 12 "B" [.int 12 2] none none)]⟩

theorem construction_ends_relayed : relayed.isFresh = true ∧
    (∃ result, relayed.compile {} = .ok result) ∧ relayed.env.types.IsConstructor ⟨2⟩ ⟨5⟩ ∧
    relayed.analyzed.Constructs ⟨5⟩ [⟨5⟩, ⟨6⟩, ⟨3⟩, ⟨4⟩, ⟨0⟩] ∧
    ¬ ∃ m', ReflTransGen relayed.analyzed.HandsOver ⟨5⟩ m' ∧
      TransGen (relayed.analyzed.Invokes .this) m' m' := by
  have hFresh : relayed.isFresh = true := by decide
  have hSome : (relayed.compile {}).toOption.isSome = true := by decide +kernel
  obtain ⟨result, hOk, -⟩ := exists_assembly hSome
  obtain ⟨-, -, hConstruction⟩ := construction_ends {} relayed hFresh result hOk
  have hm : relayed.env.types.IsConstructor ⟨2⟩ ⟨5⟩ := by decide +kernel
  have hPath : relayed.analyzed.Constructs ⟨5⟩ [⟨5⟩, ⟨6⟩, ⟨3⟩, ⟨4⟩, ⟨0⟩] :=
    .next (by decide +kernel) <| .next (by decide +kernel) <| .next (by decide +kernel) <|
      .next (by decide +kernel) .root
  exact ⟨hFresh, ⟨result, hOk⟩, hm, hPath, (hConstruction ⟨2⟩ ⟨5⟩ hm).mp ⟨_, hPath, by decide⟩⟩

/-- Two constructors of a class that call each other. -/
def circular : Program where
  classes := [
    { line := 1, name := "A", members := [
      .method {
        line := 2, kind := .constructor, name := "A"
        body := [.construct 3 .this [.int 3 1] none] },
      .method {
        line := 4, kind := .constructor, name := "A", params := [⟨4, .int, "n"⟩]
        body := [.construct 5 .this [] none] }] }]
  main := ⟨7, []⟩

/-- Nothing is reported about them, and from neither of them the root is reached. -/
theorem construction_circles : circular.isFresh = true ∧ circular.diagnostics = [] ∧
    (∃ result, circular.compile {} = .ok result) ∧
    (∀ m ∈ ([⟨3⟩, ⟨4⟩] : List MethodId), circular.env.types.IsConstructor ⟨1⟩ m ∧
      ¬ ∃ path, circular.analyzed.Constructs m path) := by
  have hFresh : circular.isFresh = true := by decide
  have hSome : (circular.compile {}).toOption.isSome = true := by decide +kernel
  obtain ⟨result, hOk, -⟩ := exists_assembly hSome
  obtain ⟨hΓ, -, -⟩ := typed_of_compile_eq_ok hFresh trivial (.trivial circular) hOk
  have hThere : circular.analyzed.HandsOver ⟨3⟩ ⟨4⟩ := by decide +kernel
  have hBack : circular.analyzed.HandsOver ⟨4⟩ ⟨3⟩ := by decide +kernel
  refine ⟨hFresh, by decide +kernel, ⟨result, hOk⟩, ?_⟩
  have hConstructors : ∀ m ∈ ([⟨3⟩, ⟨4⟩] : List MethodId),
      circular.env.types.IsConstructor ⟨1⟩ m := by decide +kernel
  intro m hm
  refine ⟨hConstructors m hm, ?_⟩
  have hCycle : TransGen circular.analyzed.HandsOver m m := by
    simp only [mem_cons, not_mem_nil, or_false] at hm
    rcases hm with rfl | rfl
    · exact .head hThere (.single hBack)
    · exact .head hBack (.single hThere)
  rintro ⟨path, hPath⟩
  have hChained := chained_of_compile_eq_ok hFresh hOk
  exact hChained.not_cycle_of_constructs hΓ.settled.coherent hPath hCycle

end Program
end TLang
