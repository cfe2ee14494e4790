import TLang.Proofs.Enlistment
import TLang.Proofs.Renumbering.Registry

/-! One class at a time. While the members of a class are declared, analysis looks at the outline of
the registry and at the record of that class, and what it adds gets the next numbers. So two
registries that agree on these up to numbers still do so afterwards, whatever the other classes have
declared in the meantime. -/
namespace TLang

open Registry Analysis List

variable {more : Nat} {m : MethodId}

variable {count : Nat}

theorem ClassInfo.withMethod_renumber (ρ : Renumbering) (c : ClassInfo) (m : MethodId)
    (info : MethodInfo) :
    (c.renumber ρ).withMethod (ρ.method m) (info.renumber ρ) = (c.withMethod m info).renumber ρ := by
  by_cases hKind : info.kind = .destructor <;>
    simp [withMethod, renumber, MethodInfo.renumber, SymbolTable.renumber, Bindings.renumber,
      Ty.renumber, hKind]

theorem ClassInfo.withField_renumber (ρ : Renumbering) (c : ClassInfo) (name : String) (ty : Ty) :
    (c.renumber ρ).withField name (ty.renumber ρ) = (c.withField name ty).renumber ρ := by
  simp [withField, renumber, SymbolTable.renumber, Bindings.renumber]

theorem Registry.RenumberedOutline.congr_outline {ρ : Renumbering} {r r' s s' : Registry}
    (h : RenumberedOutline ρ r r') (hs : s.outline = r.outline) (hs' : s'.outline = r'.outline) :
    RenumberedOutline ρ s s' where
  faithful := h.faithful
  size := by rw [length_classes_of_outline hs, length_classes_of_outline hs', h.size]
  lookup := fun name => by rw [lookupClass_of_outline hs, lookupClass_of_outline hs', h.lookup]
  name := fun c => by rw [name_of_outline hs, name_of_outline hs', h.name]
  parent := fun c => by rw [parent_of_outline hs, parent_of_outline hs', h.parent]

namespace Registry.RenumberedOutline

variable {ρ : Renumbering} {env env' : Env} (h : RenumberedOutline ρ env.types env'.types)

include h

/-- Parameters are resolved to corresponding types, and the same ones are reported as unknown or as declared
twice. -/
theorem resolveParams (method : String) (params : List Param) (known : Bindings) :
    (resolveParams method params (known.renumber ρ) env').value.1 =
        (Analysis.resolveParams method params known env).value.1.renumber ρ ∧
      (Analysis.resolveParams method params (known.renumber ρ) env').log =
        (Analysis.resolveParams method params known env).log := by
  induction params generalizing known with
  | nil => exact ⟨rfl, rfl⟩
  | cons p rest ih =>
    have hTy := h.resolveTypeName p.line p.type
    simp only [Analysis.resolveParams, value_bind, log_bind, value_read, log_read, hTy,
      Logged.value_map, Logged.log_map, Bindings.add?_renumber]
    cases known.add? p.name (env.resolveTypeName p.line p.type).value with
    | some known =>
      obtain ⟨hValue, hLog⟩ := ih known
      exact ⟨hValue, congrArg _ hLog⟩
    | none =>
      obtain ⟨hValue, hLog⟩ := ih known
      simp only [Option.map_none, log_bind, report_apply, hLog]
      exact ⟨hValue, trivial⟩

theorem resolveReturn (className : String) (d : MethodDecl) : (resolveReturn className d env').value.1 =
        (Analysis.resolveReturn className d env).value.1.map (Ty.renumber ρ) ∧
      (Analysis.resolveReturn className d env').log = (Analysis.resolveReturn className d env).log := by
  cases hKind : d.kind <;> cases hReturns : d.returns <;>
    simp [Analysis.resolveReturn, hKind, hReturns, h.resolveTypeName, Ty.renumber]

end Registry.RenumberedOutline

/-- The class with inherited fields in its table. -/
def ClassInfo.inheriting (fields : Bindings) (c : ClassInfo) : ClassInfo :=
  { c with members.names := c.members.names.extend fields }

namespace Env

variable {ρ : Renumbering} {c : ClassId} {fields : Bindings} {first : Nat} {env env' : Env}

/-- As far as the declaration of one class is concerned, the second environment is the first one
under other numbers, but for some fields that the class has yet to inherit. So are the methods that were
recorded from a certain number on. -/
structure Twins (ρ : Renumbering) (c : ClassId) (fields : Bindings) (first : Nat) (env env' : Env) : Prop where
  outline : RenumberedOutline ρ env.types env'.types
  known : c.index < env.types.classes.length
  known' : (ρ.cls c).index < env'.types.classes.length
  own : (env'.types.classInfo (ρ.cls c)).inheriting fields = (env.types.classInfo c).renumber ρ
  start : first ≤ env.size
  bounded : ∀ k, first ≤ k → k < env.size → (ρ.method ⟨k⟩).index < env'.size
  infos : ∀ k, first ≤ k → k < env.size →
    env'.types.methodInfo (ρ.method ⟨k⟩) = (env.types.methodInfo ⟨k⟩).renumber ρ

/-- The next numbers, as many as are needed, correspond. -/
def Aligned (ρ : Renumbering) (count : Nat) (env env' : Env) : Prop :=
  ∀ k < count, ρ.method ⟨env.size + k⟩ = ⟨env'.size + k⟩

theorem Aligned.mono (h : env.Aligned ρ more env') (hCount : count ≤ more) : env.Aligned ρ count env' :=
  fun k hk => h k (Nat.lt_of_lt_of_le hk hCount)

namespace Twins

/-- The record of the class is replaced on both sides. -/
theorem updateClass (h : env.Twins ρ c fields first env') {f g : ClassInfo → ClassInfo}
    (hf : ∀ i, (f i).name = i.name ∧ (f i).parent = i.parent)
    (hg : ∀ i, (g i).name = i.name ∧ (g i).parent = i.parent)
    (hOwn : (g (env'.types.classInfo (ρ.cls c))).inheriting fields = (f (env.types.classInfo c)).renumber ρ) :
    Twins ρ c fields first { env with types := env.types.updateClass c f }
      { env' with types := env'.types.updateClass (ρ.cls c) g } where
  outline := h.outline.congr_outline (outline_updateClass (fun i => (hf i).1) (fun i => (hf i).2) _)
    (outline_updateClass (fun i => (hg i).1) (fun i => (hg i).2) _)
  known := by
    rw [length_classes_updateClass]
    exact h.known
  known' := by
    rw [length_classes_updateClass]
    exact h.known'
  own := by
    rw [classInfo_updateClass_self _ _ h.known, classInfo_updateClass_self _ _ h.known', hOwn]
  start := h.start
  bounded := h.bounded
  infos := h.infos

/-- A method is recorded on both sides. -/
theorem recordMethod (h : env.Twins ρ c fields first env') {info info' : MethodInfo}
    (hInfo : info' = info.renumber ρ) (hAligned : env.Aligned ρ 1 env') :
    Twins ρ c fields first { env with types := { env.types with methods := env.types.methods ++ [info] } }
      { env' with types := { env'.types with methods := env'.types.methods ++ [info'] } } := by
  have hNext : ρ.method ⟨env.size⟩ = ⟨env'.size⟩ := hAligned 0 Nat.zero_lt_one
  refine ⟨⟨h.outline.faithful, h.outline.size, h.outline.lookup, h.outline.name, h.outline.parent⟩,
    h.known, h.known', h.own, ?_, ?_, ?_⟩
  · simp only [size, length_append, length_singleton]
    exact Nat.le_succ_of_le h.start
  · intro k hFirst hk
    simp only [size, length_append, length_singleton] at hk ⊢
    rcases Nat.lt_succ_iff_lt_or_eq.mp hk with hk | rfl
    · exact Nat.lt_succ_of_lt (h.bounded k hFirst hk)
    · rw [← size, hNext]
      exact Nat.lt_succ_self _
  · intro k hFirst hk
    simp only [size, length_append, length_singleton] at hk
    rcases Nat.lt_succ_iff_lt_or_eq.mp hk with hk | rfl
    · have hOld := h.infos k hFirst hk
      have hBound : (ρ.method ⟨k⟩).index < env'.types.methods.length := h.bounded k hFirst hk
      simp only [methodInfo] at hOld ⊢
      rw [List.getElem?_append_left hBound, List.getElem?_append_left hk]
      exact hOld
    · rw [← size, hNext]
      simp [methodInfo, size, hInfo]

end Twins
end Env

namespace Analysis

variable {α β α' β' : Type} {ρ : Renumbering} {c : ClassId} {fields : Bindings} {first : Nat} {env env' : Env}
  {f : α → α'} {g : β → β'} {x : Analysis α} {x' : Analysis α'} {k : α → Analysis β} {k' : α' → Analysis β'}

/-- Two outcomes are the same up to numbers, and the same count of methods was recorded. -/
structure Paired (ρ : Renumbering) (c : ClassId) (fields : Bindings) (first count : Nat) (f : α → β) (env env' : Env)
    (x : Checked (α × Env)) (x' : Checked (β × Env)) : Prop where
  value : x'.value.1 = f x.value.1
  log : x'.log = x.log
  twins : x.value.2.Twins ρ c fields first x'.value.2
  size : x.value.2.size = env.size + count
  size' : x'.value.2.size = env'.size + count

namespace Paired

theorem pure {f : α → β} {a : α} {b : β} (h : env.Twins ρ c fields first env') (hb : b = f a) :
    Paired ρ c fields first 0 f env env' ((Pure.pure a : Analysis α) env) ((Pure.pure b : Analysis β) env') :=
  ⟨hb, rfl, h, rfl, rfl⟩

theorem read {x : Env → Checked α} {x' : Env → Checked β} {f : α → β} (h : env.Twins ρ c fields first env')
    (hx : x' env' = f <$> x env) :
    Paired ρ c fields first 0 f env env' (Analysis.read x env) (Analysis.read x' env') := by
  refine ⟨?_, ?_, h, rfl, rfl⟩
  · rw [value_read, value_read, hx]
    rfl
  · rw [log_read, log_read, hx, Logged.log_map]

/-- Two steps that are paired may be continued by paired ones. The numbers that both take are those of the first
and then those of the second. -/
theorem bind (hAligned : env.Aligned ρ (count + more) env')
    (hx : Paired ρ c fields first count f env env' (x env) (x' env'))
    (hk : ∀ a e e', (x env).value = (a, e) → e.Twins ρ c fields first e' → e.Aligned ρ more e' →
      Paired ρ c fields first more g e e' (k a e) (k' (f a) e')) :
    Paired ρ c fields first (count + more) g env env' ((x >>= k) env) ((x' >>= k') env') := by
  have hNext : (x env).value.2.Aligned ρ more (x' env').value.2 := by
    intro i hi
    rw [hx.size, hx.size', Nat.add_assoc, Nat.add_assoc]
    exact hAligned (count + i) (Nat.add_lt_add_left hi count)
  have hRest := hk _ _ _ rfl hx.twins hNext
  rw [← hx.value] at hRest
  refine ⟨hRest.value, ?_, hRest.twins, ?_, ?_⟩
  · rw [log_bind, log_bind, hx.log, hRest.log]
  · rw [← Nat.add_assoc, ← hx.size]
    exact hRest.size
  · rw [← Nat.add_assoc, ← hx.size']
    exact hRest.size'

/-- A step that records nothing, in front of others. -/
theorem after (hAligned : env.Aligned ρ count env') (hx : Paired ρ c fields first 0 f env env' (x env) (x' env'))
    (hk : ∀ a e e', (x env).value = (a, e) → e.Twins ρ c fields first e' → e.Aligned ρ count e' →
      Paired ρ c fields first count g e e' (k a e) (k' (f a) e')) :
    Paired ρ c fields first count g env env' ((x >>= k) env) ((x' >>= k') env') := by
  have hBind : Paired ρ c fields first (0 + count) g env env' ((x >>= k) env) ((x' >>= k') env') :=
    bind (by rwa [Nat.zero_add]) hx hk
  rwa [Nat.zero_add] at hBind

/-- A step that records nothing, behind others. -/
theorem before (hx : Paired ρ c fields first count f env env' (x env) (x' env'))
    (hk : ∀ a e e', (x env).value = (a, e) → e.Twins ρ c fields first e' →
      Paired ρ c fields first 0 g e e' (k a e) (k' (f a) e')) :
    Paired ρ c fields first count g env env' ((x >>= k) env) ((x' >>= k') env') := by
  have hRest := hk _ _ _ rfl hx.twins
  rw [← hx.value] at hRest
  refine ⟨hRest.value, ?_, hRest.twins, hRest.size.trans hx.size, hRest.size'.trans hx.size'⟩
  rw [log_bind, log_bind, hx.log, hRest.log]

end Paired

theorem Env.aligned_zero (ρ : Renumbering) (env env' : Env) : env.Aligned ρ 0 env' :=
  fun _ hk => absurd hk (Nat.not_lt_zero _)

variable (h : env.Twins ρ c fields first env')
include h

/-- Recording a routine takes one number on each side, and these two numbers correspond. -/
theorem paired_record (hAligned : env.Aligned ρ 1 env')
    (className : String) (d : MethodDecl) :
    Paired ρ c fields first 1 ρ.method env env' (record c className d env)
      (record (ρ.cls c) className d env') := by
  have hNext : ρ.method ⟨env.size⟩ = ⟨env'.size⟩ := hAligned 0 Nat.zero_lt_one
  have hNil : Bindings.renumber ρ [] = [] := rfl
  have hParams := h.outline.resolveParams d.name d.params []
  rw [hNil] at hParams
  have hReturns := h.outline.resolveReturn className d
  have hSignature := h.outline.signature d.name d.kind
    (ne_ofMethod_resolveParams d.name d.params [] env (by simp [Bindings.types]))
  rw [← Bindings.types_renumber] at hSignature
  simp only [record_apply]
  refine ⟨hNext.symm, ?_, h.recordMethod ?_ hAligned, length_append, length_append⟩
  · rw [hParams.2, hReturns.2, (checkShape_apply className d env env').2]
  · simp only [hSignature, h.outline.name, hParams.1, hReturns.1]
    rfl

/-- A routine of a class is added to it, or refused for the same reason. -/
theorem paired_addMethod (hInfo : env'.types.methodInfo (ρ.method m) = (env.types.methodInfo m).renumber ρ)
    (line : Nat) (className name : String) :
    Paired ρ c fields first 0 id env env' (addMember line c className name (.ofMethod m) env)
      (addMember line (ρ.cls c) className name (.ofMethod (ρ.method m)) env') := by
  have hDestructor : (env'.types.classInfo (ρ.cls c)).destructor.isSome =
      (env.types.classInfo c).destructor.isSome :=
    (congrArg (fun i : ClassInfo => i.destructor.isSome) h.own :).trans Option.isSome_map
  have hNames : (env'.types.classInfo (ρ.cls c)).members.methods.names =
      (env.types.classInfo c).members.methods.names :=
    (congrArg (fun i : ClassInfo => i.members.methods.names) h.own :).trans (Bindings.names_renumber ρ _)
  have hKind : (env'.types.methodInfo (ρ.method m)).kind = (env.types.methodInfo m).kind := by
    rw [hInfo, MethodInfo.renumber]
  have hSignature : (env'.types.methodInfo (ρ.method m)).signature =
      (env.types.methodInfo m).signature := by
    rw [hInfo, MethodInfo.renumber]
  rw [addMember_apply, addMember_apply, addMember_ofMethod, addMember_ofMethod, Registry.addMethod,
    Registry.addMethod]
  by_cases hSecond : (env.types.methodInfo m).kind = .destructor ∧
      (env.types.classInfo c).destructor.isSome
  · rw [if_pos hSecond, if_pos (by rwa [hKind, hDestructor])]
    exact ⟨rfl, rfl, h, rfl, rfl⟩
  · have hSecond' : ¬ ((env'.types.methodInfo (ρ.method m)).kind = .destructor ∧
        (env'.types.classInfo (ρ.cls c)).destructor.isSome) := by rwa [hKind, hDestructor]
    rw [if_neg hSecond, if_neg hSecond']
    by_cases hTaken : (env.types.methodInfo m).signature ∈
        (env.types.classInfo c).members.methods.names
    · rw [if_pos hTaken, if_pos (by rwa [hSignature, hNames]), hSignature]
      exact ⟨rfl, rfl, h, rfl, rfl⟩
    · have hTaken' : (env'.types.methodInfo (ρ.method m)).signature ∉
          (env'.types.classInfo (ρ.cls c)).members.methods.names := by rwa [hSignature, hNames]
      rw [if_neg hTaken, if_neg hTaken', hInfo]
      refine ⟨rfl, rfl, h.updateClass (fun _ => ⟨rfl, rfl⟩) (fun _ => ⟨rfl, rfl⟩) ?_, rfl, rfl⟩
      rw [← ClassInfo.withMethod_renumber, ← h.own]
      rfl

omit h in
/-- The same fields are accepted. Only a class without inherited fields in its table is looked at, since the
tables have to list the same names. -/
theorem paired_addField (h : env.Twins ρ c [] first env') {ty : Ty} (hTy : ∀ m, ty ≠ .ofMethod m)
    (line : Nat) (className name : String) :
    Paired ρ c [] first 0 id env env' (addMember line c className name ty env)
      (addMember line (ρ.cls c) className name (ty.renumber ρ) env') := by
  have hOwn : env'.types.classInfo (ρ.cls c) = (env.types.classInfo c).renumber ρ := h.own
  have hNames : (env'.types.classInfo (ρ.cls c)).members.names.names =
      (env.types.classInfo c).members.names.names := by
    rw [hOwn]
    exact Bindings.names_renumber ρ _
  have hTy' : ∀ m, ty.renumber ρ ≠ .ofMethod m := by
    intro m
    cases ty with
    | ofMethod m => exact absurd rfl (hTy m)
    | _ => rintro ⟨⟩
  rw [addMember_apply, addMember_apply, addMember_eq_addField _ _ _ hTy,
    addMember_eq_addField _ _ _ hTy', Registry.addField, Registry.addField, hNames]
  by_cases hTaken : name ∈ (env.types.classInfo c).members.names.names
  · rw [if_pos hTaken, if_pos hTaken]
    exact ⟨rfl, rfl, h, rfl, rfl⟩
  · rw [if_neg hTaken, if_neg hTaken]
    refine ⟨rfl, rfl, h.updateClass (fun _ => ⟨rfl, rfl⟩) (fun _ => ⟨rfl, rfl⟩) ?_, rfl, rfl⟩
    rw [← ClassInfo.withField_renumber, ← hOwn]
    rfl

theorem paired_noteDeclared (kind : MethodKind) :
    Paired ρ c fields first 0 id env env' (noteDeclared c kind env) (noteDeclared (ρ.cls c) kind env') := by
  have hOwn := congrArg (ClassInfo.noted kind) h.own
  cases kind <;> exact ⟨rfl, rfl, h.updateClass (fun _ => ⟨rfl, rfl⟩) (fun _ => ⟨rfl, rfl⟩) hOwn, rfl, rfl⟩

/-- A routine that was recorded on both sides is attached on both or refused on both, with the same report. -/
theorem paired_attach (hInfo : env'.types.methodInfo (ρ.method m) = (env.types.methodInfo m).renumber ρ)
    (className : String) (d : MethodDecl) :
    Paired ρ c fields first 0 (Option.map ρ.method) env env' (attach c className d m env)
      (attach (ρ.cls c) className d (ρ.method m) env') := by
  refine .after (Env.aligned_zero _ _ _) (paired_addMethod h hInfo d.line className d.name) ?_
  intro added e e' _ h _
  cases added with
  | false => exact .pure h rfl
  | true =>
    cases d.synthetic with
    | true => exact .pure h rfl
    | false =>
      refine .after (Env.aligned_zero _ _ _) (paired_noteDeclared h d.kind) ?_
      intro _ e e' _ h _
      exact .pure h rfl

/-- A routine is recorded and attached alike, so it takes one number, whether it is accepted or not. -/
theorem paired_enlist (hAligned : env.Aligned ρ 1 env')
    (d : MethodDecl) :
    Paired ρ c fields first 1 (Option.map ρ.method) env env' (enlist c d env) (enlist (ρ.cls c) d env') := by
  have hName : (env'.types.classInfo (ρ.cls c)).name = (env.types.classInfo c).name := h.outline.name c
  have hRecord := paired_record h hAligned (env.types.classInfo c).name d
  have hValue : (record c (env.types.classInfo c).name d env).value.1 = ⟨env.size⟩ := by
    rw [record_apply]
  have hSize := hRecord.size
  have hInfos := hRecord.twins.infos env.size h.start (by omega)
  rw [← hValue] at hInfos
  rw [enlist_apply, enlist_apply, hName]
  have hAttach := paired_attach hRecord.twins hInfos (env.types.classInfo c).name d
  rw [← hRecord.value] at hAttach
  refine ⟨hAttach.value, ?_, hAttach.twins, hAttach.size.trans hSize, hAttach.size'.trans hRecord.size'⟩
  rw [log_bind, log_bind, hRecord.log, hAttach.log]

variable (className : String)

omit h in
theorem paired_declareFields (h : env.Twins ρ c [] first env') (d : FieldDecl) :
    Paired ρ c [] first 0 id env env' (declareFields c className d env)
      (declareFields (ρ.cls c) className d env') := by
  refine .after (Env.aligned_zero _ _ _) (.read h (h.outline.resolveTypeName d.line d.type)) ?_
  intro ty e e' hTy h _
  replace hTy : ∀ m, ty ≠ .ofMethod m := by
    obtain rfl : (env.resolveTypeName d.line d.type).value = ty := congrArg Prod.fst hTy
    exact ne_ofMethod_resolveTypeName env d.line d.type
  induction d.names generalizing e e' with
  | nil => exact .pure h rfl
  | cons name rest ih =>
    have hFirst : Paired ρ c [] first 0 id e e'
        ((do let _ ← addMember d.line c className name ty : Analysis Unit) e)
        ((do let _ ← addMember d.line (ρ.cls c) className name (ty.renumber ρ) : Analysis Unit) e') := by
      refine .before (paired_addField h hTy d.line className name) ?_
      intro _ e e' _ h
      exact .pure h rfl
    refine .before hFirst ?_
    intro _ e e' _ h
    exact ih e e' h (Env.aligned_zero _ _ _)

/-- A member of either kind is declared alike. Fields are left out where one side has inherited fields already. -/
theorem paired_enroll {member : Member} (hMember : fields = [] ∨ ∃ d, member = .method d)
    (hAligned : env.Aligned ρ member.demand env') :
    Paired ρ c fields first member.demand (Option.map ρ.method) env env' (enroll c className member env)
      (enroll (ρ.cls c) className member env') := by
  cases member with
  | method d => exact paired_enlist h hAligned d
  | field d =>
    obtain rfl : fields = [] := hMember.resolve_right (by rintro ⟨_, ⟨⟩⟩)
    refine .before (paired_declareFields className h d) ?_
    intro _ e e' _ h
    exact .pure h rfl

/-- So are all members of a class, one after the other, and the numbers that are handed out correspond in order. -/
theorem paired_enrollAll {members : List Member}
    (hMembers : ∀ member ∈ members, fields = [] ∨ ∃ d, member = .method d)
    (hAligned : env.Aligned ρ (members.map Member.demand).sum env') :
    Paired ρ c fields first (members.map Member.demand).sum (List.map (Option.map ρ.method)) env env'
      (members.mapM (enroll c className) env) (members.mapM (enroll (ρ.cls c) className) env') := by
  induction members generalizing env env' with
  | nil => exact .pure h rfl
  | cons member rest ih =>
    rw [forall_mem_cons] at hMembers
    rw [map_cons, sum_cons] at hAligned ⊢
    rw [mapM_cons, mapM_cons]
    refine .bind hAligned (paired_enroll h className hMembers.1 (hAligned.mono (Nat.le_add_right _ _))) ?_
    intro m e e' _ h hAligned
    refine .before (ih h hMembers.2 hAligned) ?_
    intro ms e e' _ h
    exact .pure h rfl

end Analysis

theorem Member.stamped_renumber (ρ : Renumbering) (className : String) (member : Member)
    (m : Option MethodId) :
    (member.renumber ρ).stamped className (m.map ρ.method) =
      (member.stamped className m).renumber ρ := by
  cases member with
  | field d => rfl
  | method d =>
    cases m <;> rfl

/-- Which inherited fields are hidden by nearer ones is told by names, so it does not depend on numbers. -/
theorem Bindings.extend_renumber (ρ : Renumbering) (b more : Bindings) :
    (b.renumber ρ).extend (more.renumber ρ) = (b.extend more).renumber ρ := by
  induction more generalizing b with
  | nil => rfl
  | cons entry more ih =>
    have hNew : (b.renumber ρ).addNew (entry.1, entry.2.renumber ρ) = (b.addNew entry).renumber ρ := by
      rw [addNew, addNew, add?_renumber]
      cases b.add? entry.1 entry.2 <;> rfl
    have hCons : Bindings.renumber ρ (entry :: more) =
        (entry.1, entry.2.renumber ρ) :: Bindings.renumber ρ more := rfl
    rw [hCons, extend, foldl_cons, hNew]
    exact ih _

theorem ClassInfo.inheriting_renumber (ρ : Renumbering) (fields : Bindings) (info : ClassInfo) :
    (info.renumber ρ).inheriting (fields.renumber ρ) = (info.inheriting fields).renumber ρ := by
  simp only [inheriting, ClassInfo.renumber, SymbolTable.renumber, Bindings.extend_renumber]

namespace ClassDecl

variable {ρ : Renumbering} {c : ClassId} {first : Nat} {env env' : Env} {d : ClassDecl}

theorem resolved_renumber (hResolved : d.resolved = some c) :
    (d.renumber ρ).resolved = some (ρ.cls c) := by
  rw [renumber, hResolved, Option.map_some]

/-- Members are declared the same under other numbers. -/
theorem paired_extend (h : env.Twins ρ c [] first env') (d : ClassDecl) (members : List Member)
    (hAligned : env.Aligned ρ (members.map Member.demand).sum env') :
    Paired ρ c [] first (members.map Member.demand).sum (renumber ρ) env env' (d.extend c members env)
      ((d.renumber ρ).extend (ρ.cls c) (members.map (Member.renumber ρ)) env') := by
  have hMembers := paired_enrollAll h d.name (fun _ _ => .inl rfl) hAligned
  have hRenumbered : (members.map (Member.renumber ρ)).mapM (enroll (ρ.cls c) d.name) =
      members.mapM (enroll (ρ.cls c) d.name) := by
    rw [mapM_map]
    congr 1
    funext member
    cases member <;> rfl
  have hName : (d.renumber ρ).name = d.name := rfl
  rw [extend_apply, extend_apply, hName, hRenumbered]
  refine ⟨?_, hMembers.log, hMembers.twins, hMembers.size, hMembers.size'⟩
  simp only [renumber, hMembers.value, zipWith_map, map_append, map_zipWith, Member.stamped_renumber]

theorem paired_declareMembers (hResolved : d.resolved = some c) (h : env.Twins ρ c [] first env')
    (hAligned : env.Aligned ρ d.demand env') :
    Paired ρ c [] first d.demand (renumber ρ) env env' (d.declareMembers env)
      ((d.renumber ρ).declareMembers env') := by
  rw [declareMembers_eq hResolved, declareMembers_eq (resolved_renumber hResolved)]
  exact paired_extend h { d with members := [] } d.members hAligned

/-- Fields are inherited on both sides. -/
theorem paired_inheritFields (h : env.Twins ρ c [] first env')
    (hInherited : env'.types.inheritedFields (ρ.cls c) = (env.types.inheritedFields c).renumber ρ) :
    Env.Twins ρ c [] first { env with types := env.types.inheritFields c }
      { env' with types := env'.types.inheritFields (ρ.cls c) } := by
  refine h.updateClass (fun _ => ⟨rfl, rfl⟩) (fun _ => ⟨rfl, rfl⟩) ?_
  rw [hInherited]
  exact (congrArg (ClassInfo.inheriting _) h.own :).trans (ClassInfo.inheriting_renumber ρ _ _)

theorem missing_renumber (ρ : Renumbering) (d : ClassDecl) (info : ClassInfo) :
    (d.renumber ρ).missing (info.renumber ρ) = (d.missing info).map (Member.renumber ρ) := by
  rw [missing, missing, ClassInfo.renumber, Option.isSome_map, map_append]
  split <;> split <;> rfl

/-- A class is completed the same under other numbers. -/
theorem paired_complete (hResolved : d.resolved = some c) (h : env.Twins ρ c [] first env')
    (hInherited : env'.types.inheritedFields (ρ.cls c) = (env.types.inheritedFields c).renumber ρ)
    (hAligned : env.Aligned ρ (env.types.classInfo c).lacking env') :
    Paired ρ c [] first (env.types.classInfo c).lacking (renumber ρ) env env' (d.complete env)
      ((d.renumber ρ).complete env') := by
  obtain ⟨wanted, -, hWanted, hComplete⟩ := exists_complete hResolved env
  obtain ⟨wanted', -, hWanted', hComplete'⟩ := exists_complete (resolved_renumber hResolved) env'
  obtain rfl := hWanted h.known
  obtain rfl := hWanted' h.known'
  have hOwn : env'.types.classInfo (ρ.cls c) = (env.types.classInfo c).renumber ρ := h.own
  rw [hComplete, hComplete', hOwn, missing_renumber]
  rw [← demand_missing d] at hAligned ⊢
  have hPaired := paired_extend (paired_inheritFields h hInherited) d _ hAligned
  exact ⟨hPaired.value, hPaired.log, hPaired.twins, hPaired.size, hPaired.size'⟩

end ClassDecl
end TLang
