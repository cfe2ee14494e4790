import TLang.Proofs.Provision
import TLang.Proofs.Renumbering.Passes

/-! One class that is declared twice. In a first run its members are declared, and the routines that it
lacks are added when it is completed. In a second run all of them are there from the start. They are
declared as before, up to numbers, and only the constructor that was added is added once more and
refused. -/
namespace TLang

open Registry Analysis List

variable {γ : Type} {ρ : Renumbering} {c : ClassId} {env : Env} {d d' : ClassDecl}

/-! Declarations that differ in their bodies. -/

namespace ClassDecl

/-- A class without the bodies of its routines. -/
def bodiless (d : ClassDecl) : ClassDecl := { d with members := d.members.map Member.bodiless }

/-- What does not depend on bodies is the same in all members. -/
theorem map_members_of_bodiless (h : d'.bodiless = d.bodiless) {view : Member → γ}
    (hView : ∀ member, view member.bodiless = view member) :
    d'.members.map view = d.members.map view := by
  have hMembers := congrArg (fun d : ClassDecl => d.members.map view) h
  simpa only [bodiless, map_map, Function.comp_def, hView] using hMembers

end ClassDecl

/-- The program itself declares a constructor. -/
def Member.declaresConstructor : Member → Bool
  | .field _ => false
  | .method d => d.kind == .constructor && !d.synthetic

namespace ClassDecl

def declaresConstructor (d : ClassDecl) : Bool := d.members.any Member.declaresConstructor

/-- The constructor that a class is given even if it has been given one. -/
def refused (d : ClassDecl) : List Member :=
  if d.declaresConstructor then [] else [.method d.defaultConstructor]

/-- What is reported if a class is given a constructor that it has. -/
def redeclarations (d : ClassDecl) : List Diagnostic :=
  if d.declaresConstructor then [] else [⟨d.line, .redeclared (.method d.name) d.name⟩]

/-- A class that is given a constructor, unless it declares one. -/
def regiven (d : ClassDecl) : ClassDecl := { d with members := d.members ++ d.refused }

/-- Whether a class declares a constructor can be told from what its members have in common. -/
theorem declaresConstructor_of_map
    (h : d'.members.map Member.declaresConstructor = d.members.map Member.declaresConstructor) :
    d'.declaresConstructor = d.declaresConstructor := by
  have hAny := congrArg (List.any · id) h
  simp only [any_map, Function.id_comp] at hAny
  exact hAny

/-- The class with its routines under new numbers and its bodies as they are. -/
def restamped (ρ : Renumbering) (d : ClassDecl) : ClassDecl :=
  { d with members := d.members.map fun member => member.stamped d.name (member.routine?.map ρ.method) }

theorem declaresConstructor_restamped (ρ : Renumbering) (d : ClassDecl) :
    (d.restamped ρ).declaresConstructor = d.declaresConstructor := by
  refine declaresConstructor_of_map ?_
  rw [restamped, map_map]
  exact map_congr_left fun member _ => by cases member <;> rfl

theorem declaresConstructor_of_bodiless (h : d'.bodiless = d.bodiless) :
    d'.declaresConstructor = d.declaresConstructor :=
  declaresConstructor_of_map (map_members_of_bodiless h fun member => by cases member <;> rfl)

end ClassDecl

/-! A constructor that is refused. -/

/-- A routine whose signature is taken is refused, but it is recorded. -/
theorem Analysis.enlist_of_taken {d : MethodDecl} (hKind : d.kind ≠ .destructor)
    (hTaken : (env.routineInfo c d).signature ∈ (env.types.classInfo c).members.methods.names) :
    enlist c d env = ⟨(none, env.recording (env.routineInfo c d)), env.headingReports c d ++
      [⟨d.line, .redeclared (.method (env.routineInfo c d).signature) (env.types.classInfo c).name⟩]⟩ := by
  have hInfo : (env.recording (env.routineInfo c d)).types.methodInfo ⟨env.size⟩ = env.routineInfo c d := by
    simp [Env.recording, methodInfo, Env.size]
  have hAdd : (env.recording (env.routineInfo c d)).types.addMethod c ⟨env.size⟩ =
      .error (.method (env.routineInfo c d).signature) := by
    rw [Registry.addMethod, hInfo]
    exact (if_neg fun h => hKind h.1).trans (if_pos hTaken)
  apply Logged.ext
  · rw [enlist_apply, value_bind, env.record_eq, attach_apply, hAdd]
  · rw [enlist_apply, log_bind, env.record_eq, attach_apply, hAdd]

theorem Registry.outline_inheritFields (r : Registry) (c : ClassId) : (r.inheritFields c).outline = r.outline := by
  rw [inheritFields]
  refine outline_updateClass ?_ ?_ r <;> exact fun _ => rfl

namespace ClassDecl

/-- A class that has all that it could be given. -/
structure Filled (env : Env) (c : ClassId) (d : ClassDecl) : Prop where
  name : (env.types.classInfo c).name = d.name
  destructor : (env.types.classInfo c).destructor.isSome
  declares : (env.types.classInfo c).hasConstructor = d.declaresConstructor
  constructor : d.declaresConstructor = false →
    (env.routineInfo c d.defaultConstructor).signature ∈ (env.types.classInfo c).members.methods.names

/-- If a class has all that it could be given, then it is given nothing but a constructor, which is
refused. -/
theorem Filled.complete (h : d.Filled env c) (hResolved : d.resolved = some c)
    (hc : c.index < env.types.classes.length) : (d.complete env).value.1 = d.regiven ∧
      (d.complete env).value.2.types.classInfo c =
        (env.types.classInfo c).inheriting (env.types.inheritedFields c) ∧
      (d.complete env).log = d.redeclarations := by
  obtain ⟨wanted, -, hWanted, hComplete⟩ := exists_complete hResolved env
  have hRefused : wanted = d.refused := by
    rw [hWanted hc, missing, h.destructor, h.declares, refused, if_pos rfl, append_nil]
  have hInherit : (env.types.inheritFields c).classInfo c =
      (env.types.classInfo c).inheriting (env.types.inheritedFields c) := classInfo_updateClass_self _ _ hc
  have hOutline := outline_inheritFields env.types c
  generalize hStart : ({ env with types := env.types.inheritFields c } : Env) = start at hComplete
  have hOwn : start.types.classInfo c = (env.types.classInfo c).inheriting (env.types.inheritedFields c) :=
    hStart ▸ hInherit
  replace hOutline : start.types.outline = env.types.outline := hStart ▸ hOutline
  rw [hComplete, hRefused, extend_apply, regiven, refused, redeclarations]
  cases hDeclares : d.declaresConstructor with
  | true => exact ⟨by simp, hOwn, rfl⟩
  | false =>
    have hTaken : (start.routineInfo c d.defaultConstructor).signature ∈
        (start.types.classInfo c).members.methods.names := by
      rw [Env.routineInfo_of_outline hOutline, hOwn]
      exact h.constructor hDeclares
    have hName : (start.types.classInfo c).name = d.name := hOwn ▸ h.name
    have hEnlist := enlist_of_taken (by simp [defaultConstructor]) hTaken
    have hHeading : start.headingReports c d.defaultConstructor = [] := by
      simp [Env.headingReports, record_apply, defaultConstructor, checkShape, resolveParams, resolveReturn, hName]
    rw [hHeading, hName] at hEnlist
    simp only [Bool.false_eq_true, if_false, mapM_cons_apply, enroll, hEnlist]
    exact ⟨rfl, hOwn, rfl⟩

end ClassDecl

/-! The turns of a class in two runs. -/

/-- Members that had no number have afterwards the one that they were given, and fields and refused methods have
none. -/
theorem Member.routines_enrollAll (c : ClassId) (className : String) {members : List Member}
    (hNone : ∀ member ∈ members, member.routine? = none) (env : Env) :
    (List.zipWith (stamped className) members (members.mapM (enroll c className) env).value.1).map routine? =
      (members.mapM (enroll c className) env).value.1 := by
  induction members generalizing env with
  | nil => rfl
  | cons member rest ih =>
    rw [forall_mem_cons] at hNone
    rw [mapM_cons_apply, zipWith_cons_cons, map_cons, ih hNone.2]
    congr 1
    cases member with
    | field d => rfl
    | method d =>
      have hResolved : d.resolved = none := hNone.1
      rw [stamped, routine?, hResolved, Option.or_none]

/-- The turns of a class. In the first one its members are declared, in the second one it is completed with
what it lacks, and in the third one its members are declared again, with other bodies. -/
structure Reruns (Γ mid final mid' : Env) (c : ClassId) (wanted : List Member) (t₁ t₂ t₃ : ClassDecl × Env) :
    Prop where
  known : c.index < Γ.types.classes.length
  resolved : t₁.1.resolved = some c
  fresh : t₁.1.routines = []
  declared : t₂.1 = (t₁.1.declareMembers t₁.2).value.1
  methods : ∀ member ∈ wanted, ∃ e, member = .method e ∧ e.resolved = none
  demand : (wanted.map Member.demand).sum = ClassDecl.lacking t₂
  completed : t₂.1.complete t₂.2 = t₂.1.extend c wanted { t₂.2 with types := t₂.2.types.inheritFields c }
  again : t₃.1.bodiless = (t₂.1.complete t₂.2).value.1.bodiless
  framed₁ : Framed ClassDecl.declareMembers c Γ mid t₁
  framed₂ : Framed ClassDecl.complete c mid final t₂
  framed₃ : Framed ClassDecl.declareMembers c Γ mid' t₃
  inherited : t₂.2.types.inheritedFields c = mid.types.inheritedFields c

/-- The numbers that the routines of a class are given while its members are declared and it is
completed. -/
def ClassDecl.numbers (t₁ t₂ : ClassDecl × Env) : List Nat :=
  List.range' t₁.2.size t₁.1.demand ++ List.range' t₂.2.size (lacking t₂)

/-- What the third turn does again. -/
structure Repeats (ρ : Renumbering) (mid final mid' : Env) (c : ClassId) (t₁ t₂ t₃ : ClassDecl × Env) : Prop where
  value : (t₃.1.declareMembers t₃.2).value.1 = t₃.1.restamped ρ
  log : (t₃.1.declareMembers t₃.2).log = (t₁.1.declareMembers t₁.2).log ++ (t₂.1.complete t₂.2).log
  own : (mid'.types.classInfo c).inheriting ((mid.types.inheritedFields c).renumber ρ) =
    (final.types.classInfo c).renumber ρ
  infos : ∀ m : MethodId, m.index ∈ ClassDecl.numbers t₁ t₂ → (ρ.method m).index < mid'.size ∧
    mid'.types.methodInfo (ρ.method m) = (final.types.methodInfo m).renumber ρ

/-- Numbers that are handed out one after the other correspond. -/
theorem Env.aligned_of_map {π : ClassId → ClassId} {g : Nat → Nat} {count : Nat} {env env' : Env}
    (h : (List.range' env.size count).map g = List.range' env'.size count) :
    env.Aligned (.ofNumbers π g) count env' := by
  intro k hk
  have hAt := congrArg (·[k]?) h
  exact congrArg MethodId.mk (by simpa [hk] using hAt)

namespace Reruns

variable {Γ mid final mid' : Env} {wanted : List Member} {t₁ t₂ t₃ : ClassDecl × Env}
  (h : Reruns Γ mid final mid' c wanted t₁ t₂ t₃)

include h

theorem declared_eq : t₂.1 = { t₁.1 with
    members := List.zipWith (Member.stamped t₁.1.name) t₁.1.members
      (t₁.1.members.mapM (enroll c t₁.1.name) t₁.2).value.1 } := by
  rw [h.declared, ClassDecl.declareMembers_eq h.resolved]
  rfl

theorem again_eq : t₃.1.name = t₁.1.name ∧ t₃.1.resolved = some c := by
  have hSame := h.again
  rw [h.completed, h.declared_eq] at hSame
  exact ⟨(congrArg ClassDecl.name hSame :), (congrArg ClassDecl.resolved hSame :).trans h.resolved⟩

/-- The members of the class are declared one after the other, first its own and then those it was lacking. -/
theorem map_members {view : Member → γ} (hBody : ∀ member, view member.bodiless = view member)
    (hStamped : ∀ className member m, view (Member.stamped className member m) = view member) :
    t₃.1.members.map view = (t₁.1.members ++ wanted).map view := by
  rw [ClassDecl.map_members_of_bodiless h.again hBody, h.completed,
    ClassDecl.map_members_extend (hStamped _), map_append, map_append, h.declared_eq]
  exact congrArg (· ++ _) (Member.map_zipWith_stamped (hStamped _) _ (length_mapM _ _ _))

/-- The members of the class are those it had and those it was given, and enrolling looks at neither bodies nor
numbers. -/
theorem mapM_enroll : t₃.1.members.mapM (enroll c t₁.1.name) =
    (t₁.1.members ++ wanted).mapM (enroll c t₁.1.name) := by
  have hMap : t₃.1.members.map (enroll c t₁.1.name) = (t₁.1.members ++ wanted).map (enroll c t₁.1.name) :=
    h.map_members (fun member => by cases member <;> rfl) (fun _ member _ => by cases member <;> rfl)
  have hAll : ∀ members : List Member, members.mapM (enroll c t₁.1.name) =
      (members.map (enroll c t₁.1.name)).mapM id := by
    intro members
    rw [mapM_map]
    rfl
  rw [hAll, hMap, ← hAll]

theorem demand_eq : t₃.1.demand = t₁.1.demand + ClassDecl.lacking t₂ := by
  rw [ClassDecl.demand, h.map_members (fun member => by cases member <;> rfl)
    (fun _ member _ => by cases member <;> rfl), map_append, sum_append, h.demand]
  rfl

/-- The routines have the numbers that they got in the first run. -/
theorem routines : t₃.1.members.map Member.routine? = (t₁.1.members.mapM (enroll c t₁.1.name) t₁.2).value.1 ++
    (wanted.mapM (enroll c t₁.1.name) { t₂.2 with types := t₂.2.types.inheritFields c }).value.1 := by
  have hName : t₂.1.name = t₁.1.name := by rw [h.declared_eq]
  have hFirst := Member.routines_enrollAll c t₁.1.name (filterMap_eq_nil_iff.mp h.fresh) t₁.2
  have hSecond := @Member.routines_enrollAll c t₁.1.name wanted (fun member hMember => ?_)
    { t₂.2 with types := t₂.2.types.inheritFields c }
  · rw [ClassDecl.map_members_of_bodiless h.again fun member => by cases member <;> rfl, h.completed,
      ClassDecl.extend_apply, map_append, hName, hSecond, h.declared_eq]
    exact congrArg (· ++ _) hFirst
  · obtain ⟨e, rfl, hNone⟩ := h.methods member hMember
    exact hNone

/-- When the members that the class was lacking are declared again, what matters of the environment is what
it was when the class was completed, but for the fields that it inherits. -/
theorem twins {g : Nat → Nat} {first : Nat}
    (hTwins : Env.Twins (.ofNumbers id g) c [] first (t₁.1.declareMembers t₁.2).value.2 env) :
    Env.Twins (.ofNumbers id g) c ((mid.types.inheritedFields c).renumber (.ofNumbers id g)) t₂.2.size
      { t₂.2 with types := t₂.2.types.inheritFields c } env := by
  have hOutline : t₂.2.types.outline = (t₁.1.declareMembers t₁.2).value.2.types.outline :=
    h.framed₂.before.outline.trans h.framed₁.after.outline
  have hKnown : c.index < t₂.2.types.classes.length := length_classes_of_outline hOutline ▸ hTwins.known
  constructor
  case outline =>
    exact hTwins.outline.congr_outline ((outline_inheritFields _ c).trans hOutline) rfl
  case known => rwa [length_classes_inheritFields]
  case known' => exact hTwins.known'
  case own =>
    have hInherit : (t₂.2.types.inheritFields c).classInfo c =
        (t₂.2.types.classInfo c).inheriting (t₂.2.types.inheritedFields c) :=
      classInfo_updateClass_self _ _ hKnown
    have hOwn := hTwins.own
    rw [← h.framed₁.left, ← h.framed₂.found] at hOwn
    show _ = ((t₂.2.types.inheritFields c).classInfo c).renumber _
    rw [hInherit, h.inherited, ← ClassInfo.inheriting_renumber, ← hOwn]
    rfl
  case start => exact Nat.le_refl _
  case bounded => exact fun k hFirst hk => absurd hk (Nat.not_lt.mpr hFirst)
  case infos => exact fun k hFirst hk => absurd hk (Nat.not_lt.mpr hFirst)

/-- The members are declared in both runs alike, first those of the class and then those it was lacking. -/
theorem paired {g : Nat → Nat} (hStart : Γ.Alike (.ofNumbers id g) Γ)
    (hNumbers : (ClassDecl.numbers t₁ t₂).map g = List.range' t₃.2.size t₃.1.demand) :
    let own := t₁.1.members.mapM (enroll c t₁.1.name)
    let added := wanted.mapM (enroll c t₁.1.name)
    let start : Env := { t₂.2 with types := t₂.2.types.inheritFields c }
    Paired (.ofNumbers id g) c [] t₁.2.size t₁.1.demand
        (List.map (Option.map (Renumbering.ofNumbers id g).method)) t₁.2 t₃.2 (own t₁.2) (own t₃.2) ∧
      Paired (.ofNumbers id g) c ((mid.types.inheritedFields c).renumber (.ofNumbers id g)) t₂.2.size
        (ClassDecl.lacking t₂) (List.map (Option.map (Renumbering.ofNumbers id g).method)) start (own t₃.2).value.2
        (added start) (added (own t₃.2).value.2) := by
  intro own added start
  rw [ClassDecl.numbers, map_append, h.demand_eq, ← range'_append_1] at hNumbers
  obtain ⟨hFirst, hSecond⟩ := append_inj hNumbers (by simp)
  have hOwn := paired_enrollAll (hStart.twins h.known h.known h.framed₁ h.framed₃) t₁.1.name
    (fun _ _ => .inl rfl) (Env.aligned_of_map hFirst)
  refine ⟨hOwn, ?_⟩
  have hTwins := hOwn.twins
  have hDeclare : (t₁.1.declareMembers t₁.2).value.2 = (own t₁.2).value.2 := by
    rw [ClassDecl.declareMembers_eq h.resolved]
    rfl
  rw [← hDeclare] at hTwins
  rw [← h.demand] at hSecond ⊢
  refine paired_enrollAll (h.twins hTwins) t₁.1.name (fun member hMember => ?_) (Env.aligned_of_map ?_)
  · obtain ⟨e, rfl, -⟩ := h.methods member hMember
    exact .inr ⟨e, rfl⟩
  · exact hSecond.trans (congrArg (List.range' · _) hOwn.size'.symm)

/-- The third turn does what the first two did, under new numbers. -/
theorem repeats {g : Nat → Nat} (hStart : Γ.Alike (.ofNumbers id g) Γ)
    (hNumbers : (ClassDecl.numbers t₁ t₂).map g = List.range' t₃.2.size t₃.1.demand) :
    Repeats (.ofNumbers id g) mid final mid' c t₁ t₂ t₃ := by
  obtain ⟨hName, hResolved⟩ := h.again_eq
  obtain ⟨hOwn, hAdded⟩ := h.paired hStart hNumbers
  have hIds := congrArg (List.map (Option.map (Renumbering.ofNumbers id g).method)) h.routines
  rw [map_append, ← hOwn.value, ← hAdded.value] at hIds
  have hGrows := Enlarges.mapM (enlarges_enroll t₁.1.name) wanted _ hOwn.twins.known'
  obtain ⟨d₁, hTurn₁⟩ : ∃ d₁, t₁.1.declareMembers t₁.2 = ⟨(d₁, _), _⟩ :=
    ⟨_, (congrFun (ClassDecl.declareMembers_eq h.resolved) _).trans (ClassDecl.extend_apply ..)⟩
  obtain ⟨d₂, hTurn₂⟩ : ∃ d₂, t₂.1.complete t₂.2 = ⟨(d₂, _), _⟩ :=
    ⟨_, h.completed.trans (ClassDecl.extend_apply ..)⟩
  have hName₂ : t₂.1.name = t₁.1.name := by rw [h.declared_eq]
  have hTurn₃ : t₃.1.declareMembers t₃.2 = ⟨(_, _), _⟩ :=
    (congrFun (ClassDecl.declareMembers_eq hResolved) _).trans (ClassDecl.extend_apply ..)
  simp only [hName, h.mapM_enroll, mapM_append_apply] at hTurn₃
  rw [hName₂] at hTurn₂
  have hLeft₂ := h.framed₂.left
  have hLeft₃ := h.framed₃.left
  have hAfter₁ := h.framed₁.after.methods
  have hAfter₂ := h.framed₂.after.methods
  have hAfter₃ := h.framed₃.after.methods
  have hLater := (h.framed₂.before.methods.trans h.framed₂.turn.types.methods).trans hAfter₂
  rw [hTurn₁] at hAfter₁
  rw [hTurn₂] at hLeft₂ hAfter₂
  rw [hTurn₃] at hLeft₃ hAfter₃
  constructor
  case value =>
    rw [hTurn₃, ← hIds, map_map, zipWith_map_right, zipWith_self, ClassDecl.restamped, hName]
    rfl
  case log =>
    rw [hTurn₁, hTurn₂, hTurn₃]
    exact congrArg₂ (· ++ ·) hOwn.log hAdded.log
  case own =>
    rw [hLeft₂, hLeft₃, ← hAdded.twins.own]
    rfl
  case infos =>
    intro m hm
    rw [ClassDecl.numbers, mem_append, mem_range'_1, mem_range'_1] at hm
    rcases hm with ⟨hFirst, hLast⟩ | ⟨hFirst, hLast⟩
    · have hm : m.index < _ := hOwn.size ▸ hLast
      have hBound := hOwn.twins.bounded m.index hFirst hm
      have hPrefix := hGrows.types.methods.trans hAfter₃
      rw [ methodInfo_of_prefix hPrefix hBound, methodInfo_of_prefix (hAfter₁.trans hLater) hm]
      exact ⟨Nat.lt_of_lt_of_le hBound hPrefix.length_le, hOwn.twins.infos m.index hFirst hm⟩
    · have hm : m.index < _ := hAdded.size ▸ hLast
      have hBound := hAdded.twins.bounded m.index hFirst hm
      rw [ methodInfo_of_prefix hAfter₃ hBound, methodInfo_of_prefix hAfter₂ hm]
      exact ⟨Nat.lt_of_lt_of_le hBound hAfter₃.length_le, hAdded.twins.infos m.index hFirst hm⟩

end Reruns
end TLang
