import TLang.Proofs.Establishment

/-! The ledger of a program. Whatever is reported while classes are declared, the tree and the registry
agree on the routines of each class: those members that were accepted are the routines of the class, in
the same order, each of them is recorded with what its heading says, and the class notes whether the
program itself declares a constructor and a destructor. -/
namespace TLang

open Registry Analysis List

variable {member : Member} {order : List Nat} {ds : List ClassDecl} {m : MethodId} {c : ClassId}
  {env : Env}

/-! Headings of routines. -/

namespace Env

/-- What is recorded of a routine that a class declares. -/
def routineInfo (env : Env) (c : ClassId) (d : MethodDecl) : MethodInfo :=
  let className := (env.types.classInfo c).name
  let params := (resolveParams d.name d.params [] env).value.1
  let signature := env.types.signature d.name d.kind params.types
  { name := d.name, owner := c, kind := d.kind, params, signature
    returns := (resolveReturn className d env).value.1, label := className ++ "$" ++ signature }

/-- The environment once a routine is recorded. -/
def recording (env : Env) (info : MethodInfo) : Env :=
  { env with types := { env.types with methods := env.types.methods ++ [info] } }

/-- What is reported about the heading of a routine. -/
def headingReports (env : Env) (c : ClassId) (d : MethodDecl) : List Diagnostic :=
  (record c (env.types.classInfo c).name d env).log

theorem record_eq (env : Env) (c : ClassId) (d : MethodDecl) :
    record c (env.types.classInfo c).name d env =
      ⟨(⟨env.size⟩, env.recording (env.routineInfo c d)), env.headingReports c d⟩ := by
  rw [headingReports, record_apply]
  rfl

section Outline

variable {env' : Env} (h : env'.types.outline = env.types.outline)

include h

/-- Parameters are resolved from the names of classes only, so what members were added in between does not
matter. -/
theorem resolveParams_of_outline (method : String) (params : List Param) (known : Bindings) :
    (resolveParams method params known env').value.1 = (resolveParams method params known env).value.1 ∧
      (resolveParams method params known env').log = (resolveParams method params known env).log := by
  induction params generalizing known with
  | nil => exact ⟨rfl, rfl⟩
  | cons p rest ih =>
    simp only [resolveParams, value_bind, log_bind, value_read, log_read, resolveTypeName_of_outline h]
    cases known.add? p.name (env.resolveTypeName p.line p.type).value with
    | none => exact ⟨(ih known).1, by simp only [log_bind, report_apply, (ih known).2]⟩
    | some extended => exact ⟨(ih extended).1, by simp only [(ih extended).2]⟩

theorem resolveReturn_of_outline (className : String) (d : MethodDecl) :
    (resolveReturn className d env').value.1 = (resolveReturn className d env).value.1 ∧
      (resolveReturn className d env').log = (resolveReturn className d env).log := by
  cases hKind : d.kind <;> cases hReturns : d.returns <;>
    simp [resolveReturn, hKind, hReturns, resolveTypeName_of_outline h]

/-- A heading says the same wherever classes have the same names and parents. -/
theorem routineInfo_of_outline (c : ClassId) (d : MethodDecl) :
    env'.routineInfo c d = env.routineInfo c d := by
  have hParams := ne_ofMethod_resolveParams d.name d.params [] env (by simp [Bindings.types])
  have hSignature := signature_of_outline h d.name d.kind hParams
  simp only [routineInfo, name_of_outline h, (resolveParams_of_outline h _ _ _).1,
    (resolveReturn_of_outline h _ d).1, hSignature]

theorem headingReports_of_outline (c : ClassId) (d : MethodDecl) :
    env'.headingReports c d = env.headingReports c d := by
  simp only [headingReports, record_apply, name_of_outline h, (resolveParams_of_outline h _ _ _).2,
    (resolveReturn_of_outline h _ d).2, (checkShape_apply _ d env env').2]

end Outline
end Env

/-! Entering a routine. -/

/-- The class with a routine, and with a note about it unless analysis has made it. -/
def ClassInfo.enlisted (d : MethodDecl) (m : MethodId) (info : MethodInfo) (c : ClassInfo) : ClassInfo :=
  if d.synthetic then c.withMethod m info else (c.withMethod m info).noted d.kind

namespace Analysis

/-- The environment once a routine is recorded and added to its class. -/
def enlisting (env : Env) (c : ClassId) (d : MethodDecl) : Env :=
  let env' := env.recording (env.routineInfo c d)
  { env' with types := env'.types.updateClass c (·.enlisted d ⟨env.size⟩ (env.routineInfo c d)) }

/-- A routine is recorded in any case. Then it is added to its class, or else it is refused. -/
theorem enlist_cases (c : ClassId) (d : MethodDecl) (env : Env) :
    (enlist c d env = ⟨(some ⟨env.size⟩, enlisting env c d), env.headingReports c d⟩ ∧
        (d.kind = .destructor → (env.types.classInfo c).destructor = none)) ∨
      ∃ member, (∀ name, member ≠ .field name) ∧ enlist c d env =
        ⟨(none, env.recording (env.routineInfo c d)), env.headingReports c d ++
          [⟨d.line, .redeclared member (env.types.classInfo c).name⟩]⟩ := by
  have hInfo : (env.recording (env.routineInfo c d)).types.methodInfo ⟨env.size⟩ =
      env.routineInfo c d := by
    simp [Env.recording, methodInfo, Env.size]
  have hRefused : ∀ member, (env.recording (env.routineInfo c d)).types.addMethod c ⟨env.size⟩ =
      .error member → enlist c d env =
        ⟨(none, env.recording (env.routineInfo c d)), env.headingReports c d ++
          [⟨d.line, .redeclared member (env.types.classInfo c).name⟩]⟩ := by
    intro member hAdd
    apply Logged.ext
    · rw [enlist_apply, value_bind, env.record_eq, attach_apply, hAdd]
    · rw [enlist_apply, log_bind, env.record_eq, attach_apply, hAdd]
  have hAdd := Registry.addMethod.eq_def (env.recording (env.routineInfo c d)).types c ⟨env.size⟩
  rw [hInfo] at hAdd
  split at hAdd
  · refine .inr ⟨_, ?_, hRefused _ hAdd⟩
    rintro name ⟨⟩
  rename_i hFirst
  split at hAdd
  · refine .inr ⟨_, ?_, hRefused _ hAdd⟩
    rintro name ⟨⟩
  · refine .inl ⟨Logged.ext ?_ ?_, ?_⟩
    · rw [enlist_apply, value_bind, env.record_eq, attach_apply, hAdd]
      simp only [enlisting]
      cases hSynthetic : d.synthetic with
      | true => simp [ClassInfo.enlisted, hSynthetic]
      | false => simp [ClassInfo.enlisted, hSynthetic, updateClass_updateClass, Function.comp_def]
    · rw [enlist_apply, log_bind, env.record_eq, attach_apply, hAdd]
      exact append_nil _
    · intro hKind
      by_contra hSome
      exact hFirst ⟨hKind, Option.isSome_iff_ne_none.mpr hSome⟩

end Analysis

/-! What the tree and the registry say of a class. -/

/-- The member is a routine of the kind that was accepted, and not one that analysis has made. -/
def Member.notes (kind : MethodKind) : Member → Bool
  | field _ => false
  | method d => d.resolved.isSome && d.kind == kind && !d.synthetic

def ClassDecl.notes (kind : MethodKind) (d : ClassDecl) : Bool := d.members.any (Member.notes kind)

/-- The number of a routine of the kind that was accepted. -/
def Member.accepted? (kind : MethodKind) : Member → Option MethodId
  | field _ => none
  | method d => if d.kind = kind then d.resolved else none

def ClassDecl.accepted (kind : MethodKind) (d : ClassDecl) : List MethodId :=
  d.members.filterMap (Member.accepted? kind)

/-- What the ledger shows of a class. -/
def ClassInfo.page (c : ClassInfo) : List MethodId × Bool × Bool × List MethodId :=
  (c.methods, c.hasConstructor, c.hasDestructor, c.destructor.toList)

def ClassDecl.page (d : ClassDecl) : List MethodId × Bool × Bool × List MethodId :=
  (d.routines, d.notes .constructor, d.notes .destructor, d.accepted .destructor)

/-- The tree and the registry agree on a class. -/
structure ClassDecl.EnteredAs (env : Env) (c : ClassId) (d : ClassDecl) : Prop where
  registered : c.index < env.types.classes.length
  below : c ≠ object
  name : (env.types.classInfo c).name = d.name
  page : (env.types.classInfo c).page = d.page
  records : ∀ e, .method e ∈ d.members → ∀ m, e.resolved = some m →
    m.index < env.size ∧ env.types.methodInfo m = env.routineInfo c e

namespace ClassDecl.EnteredAs

variable {env' : Env} {d : ClassDecl}

variable (h : d.EnteredAs env c)
include h

theorem methods : (env.types.classInfo c).methods = d.routines :=
  congrArg Prod.fst h.page

theorem destructor : (env.types.classInfo c).destructor.toList = d.accepted .destructor :=
  congrArg (·.2.2.2) h.page

/-- Every routine of a class is recorded for a member. -/
theorem exists_record (hm : m ∈ (env.types.classInfo c).methods) :
    ∃ e, .method e ∈ d.members ∧ env.types.methodInfo m = env.routineInfo c e := by
  obtain ⟨member, hMember, hRoutine⟩ := mem_filterMap.mp (h.methods ▸ hm)
  cases member with
  | field f => cases hRoutine
  | method e => exact ⟨e, hMember, (h.records e hMember m hRoutine).2⟩

/-- The destructor of a class is a member. -/
theorem exists_destructor (hm : (env.types.classInfo c).destructor = some m) :
    ∃ e, .method e ∈ d.members ∧ e.kind = .destructor ∧ e.resolved = some m := by
  have hAccepted : m ∈ d.accepted .destructor := h.destructor ▸ Option.mem_toList.mpr hm
  obtain ⟨member, hMember, hRoutine⟩ := mem_filterMap.mp hAccepted
  cases member with
  | field f => cases hRoutine
  | method e =>
    rw [Member.accepted?] at hRoutine
    split at hRoutine
    · rename_i hKind
      exact ⟨e, hMember, hKind, hRoutine⟩
    · cases hRoutine

/-- What was recorded for the members stays if nothing is lost. -/
theorem records_of_prefix (hOutline : env'.types.outline = env.types.outline)
    (hMethods : env.types.methods <+: env'.types.methods) (e : MethodDecl) (he : .method e ∈ d.members)
    (m : MethodId) (hm : e.resolved = some m) :
    m.index < env'.size ∧ env'.types.methodInfo m = env'.routineInfo c e := by
  obtain ⟨hLt, hInfo⟩ := h.records e he m hm
  refine ⟨Nat.lt_of_lt_of_le hLt hMethods.length_le, ?_⟩
  have hKept := methodInfo_of_prefix hMethods hLt
  rw [hKept, hInfo, Env.routineInfo_of_outline hOutline]

/-- The agreement lasts as long as nothing that was recorded is lost and the page of the class is left
alone. -/
theorem congr (hOutline : env'.types.outline = env.types.outline)
    (hMethods : env.types.methods <+: env'.types.methods)
    (hPage : (env'.types.classInfo c).page = (env.types.classInfo c).page) : d.EnteredAs env' c where
  registered := length_classes_of_outline hOutline ▸ h.registered
  below := h.below
  name := (name_of_outline hOutline c).trans h.name
  page := hPage.trans h.page
  records := h.records_of_prefix hOutline hMethods

theorem updateClass {f : ClassInfo → ClassInfo} (hName : ∀ i, (f i).name = i.name)
    (hParent : ∀ i, (f i).parent = i.parent) (hPage : ∀ i, (f i).page = i.page) :
    d.EnteredAs { env with types := env.types.updateClass c f } c :=
  h.congr (outline_updateClass hName hParent env.types) prefix_rfl
    (classInfo_updateClass_congr ClassInfo.page hPage env.types c)

theorem append_field (f : FieldDecl) :
    EnteredAs env c { d with members := d.members ++ [.field f] } where
  registered := h.registered
  below := h.below
  name := h.name
  page := by
    rw [h.page]
    simp [ClassDecl.page, routines, notes, accepted, Member.notes, Member.routine?, Member.accepted?]
  records := by
    intro e he
    refine h.records e ?_
    simpa using he

/-- A routine is entered on both sides if it is accepted, and on neither if it is refused. -/
theorem append_method (e : MethodDecl) (owner : Option String) :
    EnteredAs (enlist c e env).value.2 c { d with
      members := d.members ++ [.method { e with owner, resolved := (enlist c e env).value.1 }] } := by
  have hGrows := enlarges_enlist e env h.registered
  obtain ⟨hMethods, hConstructor, hDestructor, hOnly⟩ : (env.types.classInfo c).methods = d.routines ∧
        (env.types.classInfo c).hasConstructor = d.notes .constructor ∧
        (env.types.classInfo c).hasDestructor = d.notes .destructor ∧
        (env.types.classInfo c).destructor.toList = d.accepted .destructor := by
    simpa [ClassInfo.page, ClassDecl.page] using h.page
  refine ⟨length_classes_of_outline hGrows.types.outline ▸ h.registered, h.below,
    (name_of_outline hGrows.types.outline c).trans h.name, ?_, ?_⟩
  · rcases enlist_cases c e env with ⟨hEnlist, hFirst⟩ | ⟨member, -, hEnlist⟩
    · have hSelf : ((enlist c e env).value.2.types.classInfo c) =
          (env.types.classInfo c).enlisted e ⟨env.size⟩ (env.routineInfo c e) := by
        rw [hEnlist]
        exact classInfo_updateClass_self _ _ h.registered
      have hRoutine : (env.routineInfo c e).kind = e.kind := rfl
      rw [hSelf, hEnlist]
      cases hSynthetic : e.synthetic <;> cases hKind : e.kind <;>
        simp_all [ClassInfo.enlisted, ClassInfo.noted, ClassInfo.page, ClassDecl.page,
          ClassInfo.withMethod, routines, notes, accepted, Member.notes, Member.routine?, Member.accepted?]
    · have hSelf : (enlist c e env).value.2.types.classInfo c = env.types.classInfo c := by
        rw [hEnlist]
        rfl
      rw [hSelf, hEnlist]
      simp [ClassInfo.page, ClassDecl.page, hMethods, hConstructor, hDestructor, hOnly, routines, notes,
        accepted, Member.notes, Member.routine?, Member.accepted?]
  · intro e' he' m hm
    rcases mem_append.mp he' with he' | he'
    · exact h.records_of_prefix hGrows.types.outline hGrows.types.methods e' he' m hm
    · obtain rfl := Member.method.inj (mem_singleton.mp he')
      rcases enlist_cases c e env with ⟨hEnlist, -⟩ | ⟨member, -, hEnlist⟩
      · have hm : m = ⟨env.size⟩ := by
          rw [hEnlist] at hm
          exact (Option.some.inj hm).symm
        have hInfo : (enlist c e env).value.2.types.methodInfo m = env.routineInfo c e := by
          rw [hEnlist, hm]
          simp [enlisting, Env.recording, methodInfo, Env.size, Registry.updateClass]
        refine ⟨?_, hInfo.trans (Env.routineInfo_of_outline hGrows.types.outline c e).symm⟩
        rw [size_enlist, hm]
        exact Nat.lt_succ_self _
      · rw [hEnlist] at hm
        cases hm

end ClassDecl.EnteredAs

/-- Fields do not show in the ledger. -/
theorem Analysis.page_declareFields (hc : c.index < env.types.classes.length) (className : String)
    (d : FieldDecl) :
    ((declareFields c className d env).value.2.types.classInfo c).page =
      (env.types.classInfo c).page := by
  have hTy := ne_ofMethod_resolveTypeName env d.line d.type
  rw [declareFields, value_bind, value_read]
  generalize (env.resolveTypeName d.line d.type).value = ty at hTy
  induction d.names generalizing env with
  | nil => rfl
  | cons name rest ih =>
    have hGrows := enlarges_addMember d.line c className name ty env hc
    have hFirst : ((addMember d.line c className name ty env).value.2.types.classInfo c).page =
        (env.types.classInfo c).page := by
      rw [addMember_apply, addMember_eq_addField _ _ _ hTy]
      cases hAdd : env.types.addField c name ty with
      | error member => rfl
      | ok types =>
        obtain ⟨-, -, -, -, hSelf⟩ := addField_eq_ok hc hAdd
        rw [hSelf]
        rfl
    exact (ih (length_classes_of_outline hGrows.types.outline ▸ hc)).trans hFirst

namespace ClassDecl

variable {d : ClassDecl}

/-- A member is entered on both sides. -/
theorem EnteredAs.enroll (h : d.EnteredAs env c) (className : String) (hMember : member.routine? = none) :
    EnteredAs (enroll c className member env).value.2 c { d with
      members := d.members ++ [member.stamped className (enroll c className member env).value.1] } := by
  cases member with
  | field f =>
    have hGrows := enlarges_enroll className (.field f) env h.registered
    exact (h.congr hGrows.types.outline hGrows.types.methods
      (page_declareFields h.registered className f)).append_field _
  | method e =>
    have hResolved : e.resolved = none := hMember
    have hEntered := h.append_method e (some className)
    rw [Member.stamped, hResolved, Option.or_none]
    exact hEntered

/-- The agreement is kept while members are added. Members that have a number already are left out. -/
theorem EnteredAs.enrollAll (h : d.EnteredAs env c) (className : String) (members : List Member)
    (hMembers : ∀ member ∈ members, member.routine? = none) :
    EnteredAs (members.mapM (Analysis.enroll c className) env).value.2 c { d with
      members := d.members ++ List.zipWith (Member.stamped className) members
        (members.mapM (Analysis.enroll c className) env).value.1 } := by
  induction members generalizing env d with
  | nil =>
    rw [zipWith_nil_left, append_nil]
    exact h
  | cons member members ih =>
    rw [forall_mem_cons] at hMembers
    have hRest := ih (h.enroll className hMembers.1) hMembers.2
    rw [mapM_cons_apply, zipWith_cons_cons]
    rwa [append_assoc] at hRest

/-- The page of a class of which no routine was accepted is blank. -/
theorem page_of_routines (hNone : d.routines = []) : d.page = ([], false, false, []) := by
  have hMember : ∀ member ∈ d.members, ∀ kind, Member.notes kind member = false ∧
      Member.accepted? kind member = none := by
    intro member hMember kind
    have hNone := filterMap_eq_nil_iff.mp hNone member hMember
    cases member with
    | field f => exact ⟨rfl, rfl⟩
    | method e =>
      rw [Member.routine?] at hNone
      simp [Member.notes, Member.accepted?, hNone]
  have hNotes : ∀ kind, d.notes kind = false := fun kind =>
    any_eq_false.mpr fun member h => by simp [(hMember member h kind).1]
  have hAccepted : d.accepted .destructor = [] :=
    filterMap_eq_nil_iff.mpr fun member h => (hMember member h _).2
  rw [page, hNone, hNotes, hNotes, hAccepted]

variable (h : d.EnteredAs env c)
include h

/-- Declaring the members of a class enters all of them. -/
theorem EnteredAs.declareMembers (hResolved : d.resolved = some c)
    (hNone : d.routines = []) : (d.declareMembers env).value.1.EnteredAs (d.declareMembers env).value.2 c := by
  have hMembers : ∀ member ∈ d.members, member.routine? = none := filterMap_eq_nil_iff.mp hNone
  have hEmpty : EnteredAs env c { d with members := [] } := by
    refine ⟨h.registered, h.below, h.name, ?_, fun e he => absurd he not_mem_nil⟩
    rw [h.page, page_of_routines hNone]
    rfl
  rw [declareMembers_eq hResolved]
  exact hEmpty.enrollAll d.name d.members hMembers

theorem EnteredAs.inheritFields : d.EnteredAs { env with types := env.types.inheritFields c } c := by
  rw [Registry.inheritFields]
  exact h.updateClass (fun _ => rfl) (fun _ => rfl) fun _ => rfl

/-- Completing a class enters what it was lacking. -/
theorem EnteredAs.complete (hResolved : d.resolved = some c) :
    (d.complete env).value.1.EnteredAs (d.complete env).value.2 c := by
  obtain ⟨wanted, hSub, -, hComplete⟩ := exists_complete hResolved env
  rw [hComplete]
  exact h.inheritFields.enrollAll d.name wanted fun member hMember => routine_of_mem_defaults (hSub.subset hMember)

theorem EnteredAs.buildVMT (hResolved : d.resolved = some c) :
    (d.buildVMT env).value.1.EnteredAs (d.buildVMT env).value.2 c := by
  simp only [ClassDecl.buildVMT, hResolved, value_bind, modify_apply, pure_apply, Registry.buildVMT]
  exact h.updateClass (fun _ => rfl) (fun _ => rfl) fun _ => rfl

end ClassDecl

/-! Members that are accepted. -/

/-- No member was refused. -/
def ClassDecl.Accepted (d : ClassDecl) : Prop := ∀ e, .method e ∈ d.members → ∃ m, e.resolved = some m

/-- Nothing terminal is reported about the heading of a member. -/
def Member.HeadingQuiet (env : Env) (c : ClassId) : Member → Prop
  | field d => Quiet (env.resolveTypeName d.line d.type).log
  | method d => Quiet (env.headingReports c d)

/-- Types in headings are looked up by name, so the members that were added before have no influence. -/
theorem Member.HeadingQuiet.of_outline {env' : Env} (h : member.HeadingQuiet env c)
    (hOutline : env'.types.outline = env.types.outline) : member.HeadingQuiet env' c := by
  cases member with
  | field d =>
    rw [HeadingQuiet, Env.resolveTypeName_of_outline hOutline]
    exact h
  | method d =>
    rw [HeadingQuiet, Env.headingReports_of_outline hOutline]
    exact h

namespace Analysis

/-- A routine is only refused by a terminal report. -/
theorem enlist_of_quiet {d : MethodDecl} (hQuiet : Quiet (enlist c d env).log) :
    (enlist c d env).value.1 = some ⟨env.size⟩ ∧ Quiet (env.headingReports c d) := by
  rcases enlist_cases c d env with ⟨hEnlist, -⟩ | ⟨member, hRoutine, hEnlist⟩
  · rw [hEnlist] at hQuiet ⊢
    exact ⟨rfl, hQuiet⟩
  · rw [hEnlist, Quiet.append_iff] at hQuiet
    have hLast := hQuiet.2 _ (mem_singleton_self _)
    cases member with
    | field name => exact absurd rfl (hRoutine name)
    | method _ | destructor => cases hLast

/-- If adding members reports nothing terminal, each of their headings is in order on its own. -/
theorem headingQuiet_enrollAll (hc : c.index < env.types.classes.length) (className : String)
    {members : List Member} (hQuiet : Quiet (members.mapM (enroll c className) env).log) :
    ∀ member ∈ members, member.HeadingQuiet env c := by
  induction members generalizing env with
  | nil => exact fun _ hMember => absurd hMember not_mem_nil
  | cons member members ih =>
    rw [mapM_cons_apply, Quiet.append_iff] at hQuiet
    have hGrows := enlarges_enroll className member env hc
    have hRest := ih (length_classes_of_outline hGrows.types.outline ▸ hc) hQuiet.2
    rw [forall_mem_cons]
    refine ⟨?_, fun other hOther => (hRest other hOther).of_outline hGrows.types.outline.symm⟩
    cases member with
    | field d =>
      have hType : Quiet (declareFields c className d env).log := (Quiet.append_iff.mp hQuiet.1).1
      rw [declareFields, log_bind, log_read, Quiet.append_iff] at hType
      exact hType.1
    | method d => exact (enlist_of_quiet hQuiet.1).2

end Analysis

namespace ClassDecl

variable {d : ClassDecl}

/-- If extending a class reports nothing terminal, no member of the extended class was refused. -/
theorem accepted_extend {members : List Member} (hQuiet : Quiet (d.extend c members env).log) (h : d.Accepted) :
    (d.extend c members env).value.1.Accepted := by
  have hMembers := mapM_declareMember c d.name members env
  rw [extend_apply] at hQuiet ⊢
  intro e he
  rcases mem_append.mp he with he | he
  · exact h e he
  · replace he : .method e ∈ (members.mapM (declareMember c d.name) env).value.1 := by
      rw [hMembers]
      exact he
    obtain ⟨member, -, e', hMember, hLog⟩ := exists_turn_of_mem_mapM he
    rw [hMembers, declareMember_eq, log_map] at hLog
    rw [declareMember_eq, value_map] at hMember
    cases member with
    | field f => cases hMember
    | method a =>
      have hAccepted := (enlist_of_quiet fun report hReport => hQuiet report (hLog hReport)).1
      obtain rfl := Member.method.inj hMember
      exact ⟨_, congrArg (Option.or · a.resolved) hAccepted⟩

theorem accepted_declareMembers (hResolved : d.resolved = some c)
    (hQuiet : Quiet (d.declareMembers env).log) : (d.declareMembers env).value.1.Accepted := by
  rw [declareMembers_eq hResolved] at hQuiet ⊢
  exact accepted_extend hQuiet fun e he => absurd he not_mem_nil

theorem accepted_complete (hResolved : d.resolved = some c) (hQuiet : Quiet (d.complete env).log)
    (h : d.Accepted) : (d.complete env).value.1.Accepted := by
  obtain ⟨wanted, -, -, hComplete⟩ := exists_complete hResolved env
  rw [hComplete] at hQuiet ⊢
  exact accepted_extend hQuiet h

end ClassDecl

/-! Whole programs. -/

/-- The tree and the registry agree on all classes. Each class below the root is declared once, and the
root is as it was at the start. -/
structure Ledger (ds : List ClassDecl) (env : Env) : Prop where
  entered : ∀ d ∈ ds, ∀ c, d.resolved = some c → d.EnteredAs env c
  distinct : ∀ {i j : Nat} {d d' : ClassDecl} {c : ClassId}, ds[i]? = some d → ds[j]? = some d' →
    d.resolved = some c → d'.resolved = some c → i = j
  covered : env.types.CoveredBy ds
  root : env.types.classInfo object = initial.classInfo object
  rootMethods : initial.methods <+: env.types.methods

namespace Ledger

variable {env' : Env}

/-- A step for one class. -/
theorem set (h : Ledger ds env) {i : Nat} {d d' : ClassDecl} (hd : ds[i]? = some d)
    (hResolved : d.resolved = some c) (hResolved' : d'.resolved = some c) (hGrows : env.Grows c env')
    (hEntered : d'.EnteredAs env' c) : Ledger (ds.set i d') env' := by
  have hi : i < ds.length := (List.getElem?_eq_some_iff.mp hd).1
  -- At every index there is a class with the number that was there before.
  have hBefore : ∀ {j : Nat} {e : ClassDecl}, (ds.set i d')[j]? = some e →
      ∃ e₀, ds[j]? = some e₀ ∧ e₀.resolved = e.resolved ∧ (j = i ∧ e = d' ∨ j ≠ i ∧ e = e₀) := by
    intro j e he
    by_cases hij : i = j
    · subst hij
      rw [List.getElem?_set_self hi] at he
      cases he
      exact ⟨d, hd, hResolved.trans hResolved'.symm, .inl ⟨rfl, rfl⟩⟩
    · rw [List.getElem?_set_ne hij] at he
      exact ⟨e, he, rfl, .inr ⟨Ne.symm hij, rfl⟩⟩
  refine ⟨?_, ?_, ?_, ?_, ?_⟩
  · intro e he c' hc'
    obtain ⟨j, hj⟩ := mem_iff_getElem?.mp he
    obtain ⟨e₀, he₀, hSame, ⟨rfl, rfl⟩ | ⟨hij, rfl⟩⟩ := hBefore hj
    · obtain rfl : c = c' := Option.some.inj (hResolved'.symm.trans hc')
      exact hEntered
    · have hOther : c' ≠ c := by
        rintro rfl
        exact hij (h.distinct he₀ hd hc' hResolved)
      exact (h.entered e (mem_of_getElem? he₀) c' hc').congr hGrows.types.outline hGrows.types.methods
        (by rw [hGrows.types.others c' hOther])
  · intro j k e e' c' hj hk hc hc'
    obtain ⟨e₀, he₀, hSame, -⟩ := hBefore hj
    obtain ⟨e₀', he₀', hSame', -⟩ := hBefore hk
    exact h.distinct he₀ he₀' (hSame.trans hc) (hSame'.trans hc')
  · intro c' hc' hBelow
    rw [length_classes_of_outline hGrows.types.outline] at hc'
    obtain ⟨e, he, hc'⟩ := h.covered c' hc' hBelow
    obtain ⟨j, hj⟩ := mem_iff_getElem?.mp he
    by_cases hij : i = j
    · subst hij
      rw [hd] at hj
      cases hj
      exact ⟨d', mem_of_getElem? (List.getElem?_set_self hi),
        (hResolved'.trans hResolved.symm).trans hc'⟩
    · exact ⟨e, mem_of_getElem? ((List.getElem?_set_ne hij).trans hj), hc'⟩
  · rw [hGrows.types.others object hEntered.below.symm, h.root]
  · exact h.rootMethods.trans hGrows.types.methods

/-- Where the routines of a class come from: those of the root are as they were at the start, and the
others are recorded for a member. -/
theorem sources (h : Ledger ds env) (hm : m ∈ (env.types.classInfo c).methods) :
    (m ∈ (initial.classInfo object).methods ∧ env.types.methodInfo m = initial.methodInfo m) ∨
      ∃ d ∈ ds, ∃ e, .method e ∈ d.members ∧ env.types.methodInfo m = env.routineInfo c e := by
  by_cases hRoot : c = object
  · subst hRoot
    rw [h.root] at hm
    have hBound : ∀ m ∈ (initial.classInfo object).methods, m.index < initial.methods.length := by decide
    have hRecord := methodInfo_of_prefix h.rootMethods (hBound m hm)
    exact .inl ⟨hm, hRecord⟩
  · obtain ⟨d, hd, hResolved⟩ := h.covered c (Registry.registered_of_mem hm) hRoot
    obtain ⟨e, he, hInfo⟩ := (h.entered d hd c hResolved).exists_record hm
    exact .inr ⟨d, hd, e, he, hInfo⟩

/-- A pass over the classes in which each has at most one turn. Whoever has a turn finds that the tree and
the registry agree, and what is reported then is part of what the pass reports. -/
theorem inOrder {step : ClassDecl → Analysis ClassDecl} (due : ClassDecl → Prop)
    (hNone : ∀ d, d.resolved = none → step d = pure d)
    (hKept : ∀ d e, (step d e).value.1.resolved = d.resolved)
    (hEnlarges : ∀ d c, d.resolved = some c → Enlarges c (step d))
    (hStep : ∀ d e c, due d → d.resolved = some c → d.EnteredAs e c →
      (step d e).value.1.EnteredAs (step d e).value.2 c) (hNodup : order.Nodup)
    (hDue : ∀ i ∈ order, ∀ d, ds[i]? = some d → due d) (h : Ledger ds env) :
    let pass := Analysis.inOrder order step ds env
    Ledger pass.value.1 pass.value.2 ∧ pass.value.2.types.outline = env.types.outline ∧
      ∀ i ∈ order, ∀ d c, ds[i]? = some d → d.resolved = some c → ∃ e, d.EnteredAs e c ∧
        e.types.outline = env.types.outline ∧ (step d e).log ⊆ pass.log ∧
        pass.value.1[i]? = some (step d e).value.1 := by
  induction order generalizing ds env with
  | nil => exact ⟨h, rfl, fun i hi => absurd hi not_mem_nil⟩
  | cons i order ih =>
    obtain ⟨hNot, hRest⟩ := nodup_cons.mp hNodup
    cases hd : ds[i]? with
    | none =>
      rw [inOrder_cons_of_none hd]
      obtain ⟨hLedger, hOutline, hTurns⟩ := ih hRest (fun j hj => hDue j (mem_cons_of_mem _ hj)) h
      refine ⟨hLedger, hOutline, ?_⟩
      intro j hj d c hAt
      rcases mem_cons.mp hj with rfl | hj
      · cases hd.symm.trans hAt
      · exact hTurns j hj d c hAt
    | some d =>
      have hLater : ∀ j ∈ order, (ds.set i (step d env).value.1)[j]? = ds[j]? := by
        intro j hj
        refine List.getElem?_set_ne ?_
        rintro rfl
        exact hNot hj
      have hNext : Ledger (ds.set i (step d env).value.1) (step d env).value.2 ∧
          (step d env).value.2.types.outline = env.types.outline := by
        cases hResolved : d.resolved with
        | none =>
          have hSelf : ds.set i d = ds := by
            obtain ⟨hi, rfl⟩ := List.getElem?_eq_some_iff.mp hd
            exact set_getElem_self hi
          rw [hNone d hResolved]
          exact ⟨hSelf.symm ▸ h, rfl⟩
        | some c =>
          have hEntered := h.entered d (mem_of_getElem? hd) c hResolved
          have hGrows := hEnlarges d c hResolved env hEntered.registered
          exact ⟨h.set hd hResolved ((hKept d env).trans hResolved) hGrows
            (hStep d env c (hDue i mem_cons_self d hd) hResolved hEntered), hGrows.types.outline⟩
      obtain ⟨hLedger, hOutline, hTurns⟩ := ih hRest
        (fun j hj d hAt => hDue j (mem_cons_of_mem _ hj) d (hLater j hj ▸ hAt)) hNext.1
      rw [inOrder_cons_of_some hd]
      refine ⟨hLedger, hOutline.trans hNext.2, ?_⟩
      intro j hj d' c hAt hResolved
      rcases mem_cons.mp hj with rfl | hj
      · obtain rfl : d = d' := Option.some.inj (hd.symm.trans hAt)
        refine ⟨env, h.entered d (mem_of_getElem? hd) c hResolved, rfl, subset_append_left _ _, ?_⟩
        rw [Program.getElem?_inOrder_of_not_mem hRest _ _ hNot]
        exact List.getElem?_set_self (List.getElem?_eq_some_iff.mp hd).1
      · obtain ⟨e, hEntered, hSame, hLog, hEnd⟩ := hTurns j hj d' c ((hLater j hj).trans hAt) hResolved
        exact ⟨e, hEntered, hSame.trans hNext.2, List.Subset.trans hLog (subset_append_right _ _), hEnd⟩

end Ledger

/-- Once the classes are collected, nothing is declared in any of them. -/
theorem Gathered.ledger {linked : Env} (h : Gathered ds linked env)
    (hFresh : ∀ d ∈ ds, d.resolved = none ∧ d.routines = []) :
    Ledger (ClassDecl.registered ds) env ∧ ∀ d ∈ ClassDecl.registered ds, d.routines = [] := by
  have hUnresolved := fun d hd => (hFresh d hd).1
  have hNone : ∀ d ∈ ClassDecl.registered ds, d.routines = [] := by
    intro d hd
    obtain ⟨i, hi, rfl⟩ := mem_mapIdx.mp hd
    have hNone := (hFresh _ (getElem_mem hi)).2
    split
    · exact hNone
    · exact hNone
  refine ⟨⟨?_, ?_, ?_, h.linking.root, ?_⟩, hNone⟩
  · intro d hd c hc
    obtain ⟨i, hi⟩ := mem_iff_getElem?.mp hd
    obtain ⟨d', hd', rfl⟩ := (ClassDecl.resolved_registered_iff hUnresolved).mp ⟨d, hi, hc⟩
    obtain rfl := Option.some.inj ((ClassDecl.getElem?_registered hd').symm.trans hi)
    obtain ⟨hLt, hName⟩ := hd'.name_place h.names
    have hBelow := ClassDecl.Registers.place_ne_object ds i
    refine ⟨hLt, hBelow, hName, ?_, ?_⟩
    · obtain ⟨name, hBare⟩ := h.linking.bare hBelow
      have hPage := congrArg ClassInfo.page hBare
      rw [ClassDecl.page_of_routines (hNone _ hd)]
      exact hPage
    · intro e he m hm
      have hMember := filterMap_eq_nil_iff.mp (hNone _ hd) _ he
      rw [Member.routine?, hm] at hMember
      cases hMember
  · intro i j d d' c hi hj hc hc'
    obtain ⟨a, ha, hPlace⟩ := (ClassDecl.resolved_registered_iff hUnresolved).mp ⟨d, hi, hc⟩
    obtain ⟨b, hb, hPlace'⟩ := (ClassDecl.resolved_registered_iff hUnresolved).mp ⟨d', hj, hc'⟩
    have hSame := congrArg ClassId.index (hPlace.trans hPlace'.symm)
    exact Nat.le_antisymm ((ha.place_le_iff hb).mp (Nat.le_of_eq hSame))
      ((hb.place_le_iff ha).mp (Nat.le_of_eq hSame.symm))
  · intro c hc hBelow
    obtain ⟨i, d, hd, rfl⟩ := ClassDecl.exists_registers_of_class h.names hc hBelow
    exact ⟨_, mem_of_getElem? (ClassDecl.getElem?_registered hd), rfl⟩
  · rw [h.methods]

/-- Building tables leaves the declarations alone. -/
theorem Program.value_inOrder_buildVMT (hNodup : order.Nodup) (ds : List ClassDecl) (env : Env) :
    (inOrder order ClassDecl.buildVMT ds env).value.1 = ds := by
  have hSame := @map_inOrder order _ _ id (fun d e => d.value_buildVMT e) hNodup ds env
  rwa [map_id, map_id] at hSame

/-- What becomes of a class that is registered: its members are declared, and then it is completed. The
tree and the registry agree at the end, and they agree when its turn to be completed has come. Unless
something terminal is reported, no member is refused. -/
structure Program.SettlesClasses (ds classes : List ClassDecl) (env : Env) (log : List Diagnostic) : Prop where
  ledger : Ledger classes env
  numbers : classes.map ClassDecl.resolved = (ClassDecl.registered ds).map ClassDecl.resolved
  completed : ∀ (i : Nat) d' c, classes[i]? = some d' → d'.resolved = some c →
    ∃ d own e e', ClassDecl.Registers ds i d ∧ c = ClassDecl.place ds i ∧
      own = ({ d with resolved := some c }.declareMembers e).value.1 ∧
      own.EnteredAs e' c ∧ d' = (own.complete e').value.1 ∧
      (Quiet log → d'.Accepted ∧ ∀ member ∈ d.members, member.HeadingQuiet env c)

/-- All passes over the declarations together settle every class, if no declaration comes with numbers from an
earlier run. -/
theorem Program.settles_declareClasses (hFresh : ∀ d ∈ ds, d.resolved = none ∧ d.routines = []) :
    SettlesClasses ds (declareClasses ds {}).value.1 (declareClasses ds {}).value.2 (declareClasses ds {}).log := by
  have hUnresolved := fun d hd => (hFresh d hd).1
  obtain ⟨linked, start, hGathered, hCollect, -⟩ := exists_gathered hUnresolved
  obtain ⟨hLedger, hNone⟩ := hGathered.ledger hFresh
  have hNodup := start.types.nodup_declarationOrder (ClassDecl.registered ds)
  obtain ⟨hDeclared, hOutline, hDeclaring⟩ := Ledger.inOrder (fun d => d.routines = [])
    (fun d h => by rw [ClassDecl.declareMembers, h]) (fun d e => d.resolved_declareMembers e)
    (fun d c h => ClassDecl.enlarges_declareMembers h)
    (fun d e c hDue hResolved h => h.declareMembers hResolved hDue) hNodup
    (fun i _ d hd => hNone d (mem_of_getElem? hd)) hLedger
  obtain ⟨hCompleted, hOutline', hCompleting⟩ := Ledger.inOrder (fun _ => True)
    (fun d h => by rw [ClassDecl.complete, h]) (fun d e => d.resolved_complete e)
    (fun d c h => ClassDecl.enlarges_complete h) (fun d e c _ hResolved h => h.complete hResolved)
    hNodup (fun _ _ _ _ => trivial) hDeclared
  obtain ⟨hBuilt, hOutline'', -⟩ := Ledger.inOrder (fun _ => True)
    (fun d h => by rw [ClassDecl.buildVMT, h]) (fun d e => by rw [d.value_buildVMT e])
    (fun d c h => ClassDecl.enlarges_buildVMT h)
    (fun d e c _ hResolved h => h.buildVMT hResolved) hNodup (fun _ _ _ _ => trivial) hCompleted
  simp only [declareClasses, value_bind, log_bind, hCollect]
  refine ⟨hBuilt, ?_, ?_⟩
  · rw [value_inOrder_buildVMT hNodup, map_inOrder (fun d e => d.resolved_complete e) hNodup,
      map_inOrder (fun d e => d.resolved_declareMembers e) hNodup]
  intro i d' c hd' hResolved
  rw [value_inOrder_buildVMT hNodup] at hd'
  by_cases hDue : i ∈ start.types.declarationOrder (ClassDecl.registered ds)
  · obtain ⟨d₀, c₀, hd₀, hc₀⟩ := mem_declarationOrder_iff.mp hDue
    obtain ⟨d, hd, rfl⟩ := (ClassDecl.resolved_registered_iff hUnresolved).mp ⟨d₀, hd₀, hc₀⟩
    obtain rfl := Option.some.inj ((ClassDecl.getElem?_registered hd).symm.trans hd₀)
    obtain ⟨e₁, hEntered₁, hSame₁, hLog₁, hOwn⟩ := hDeclaring i hDue _ _ hd₀ rfl
    obtain ⟨e₂, hEntered₂, hSame₂, hLog₂, hEnd⟩ :=
      hCompleting i hDue _ _ hOwn (ClassDecl.resolved_declareMembers _ e₁)
    obtain rfl := Option.some.inj (hEnd.symm.trans hd')
    rw [ClassDecl.resolved_complete, ClassDecl.resolved_declareMembers, Option.some.injEq] at hResolved
    subst hResolved
    refine ⟨d, _, e₁, e₂, hd, rfl, rfl, hEntered₂, rfl, fun hQuiet => ?_⟩
    rw [Quiet.append_iff, Quiet.append_iff, Quiet.append_iff] at hQuiet
    have hQuiet₁ := fun report hReport => hQuiet.2.1 report (hLog₁ hReport)
    refine ⟨ClassDecl.accepted_complete (ClassDecl.resolved_declareMembers _ e₁)
      (fun report hReport => hQuiet.2.2.1 report (hLog₂ hReport))
      (ClassDecl.accepted_declareMembers rfl hQuiet₁), fun member hMember => ?_⟩
    rw [ClassDecl.declareMembers_eq rfl, ClassDecl.extend_apply] at hQuiet₁
    exact (headingQuiet_enrollAll hEntered₁.registered d.name hQuiet₁ member hMember).of_outline
      (hOutline''.trans (hOutline'.trans (hOutline.trans hSame₁.symm)))
  · rw [getElem?_inOrder_of_not_mem hNodup _ _ hDue, getElem?_inOrder_of_not_mem hNodup _ _ hDue] at hd'
    exact absurd (mem_declarationOrder_iff.mpr ⟨d', c, hd', hResolved⟩) hDue

end TLang
