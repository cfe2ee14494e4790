import TLang.Proofs.Members

/-! Declarations apart from their trees. Of the tree of a method, only the heading matters for what is
declared, and only the number of the method is put into it. A declaration changes nothing but the
record of its class, and what it adds gets the next numbers. -/
namespace TLang

open Registry Analysis List

variable {γ : Type} {id : ClassId} {env : Env} {d : ClassDecl}

/-- How many methods have been recorded. -/
def Env.size (env : Env) : Nat := env.types.methods.length

/-! A declaration apart from its tree. -/

namespace Analysis

/-- Record what a declaration says of a routine, under the next number. -/
def record (id : ClassId) (className : String) (d : MethodDecl) : Analysis MethodId := do
  let params ← resolveParams d.name d.params []
  let returns ← resolveReturn className d
  checkShape className d
  let env ← get
  let (method, types) := env.types.declareMethod id d.name d.kind params returns
  set { env with types }
  return method

/-- Add a recorded routine to its class. -/
def attach (id : ClassId) (className : String) (d : MethodDecl) (method : MethodId) :
    Analysis (Option MethodId) := do
  if ← addMember d.line id className d.name (.ofMethod method) then
    if !d.synthetic then
      noteDeclared id d.kind
    return some method
  else
    return none

/-- Declare a method of a class. The result is its number, unless it is refused. -/
def enlist (id : ClassId) (d : MethodDecl) : Analysis (Option MethodId) := do
  let className := ((← get).types.classInfo id).name
  let method ← record id className d
  attach id className d method

/-- Only the number of a method is of interest for its tree. -/
theorem declareMethod_eq (id : ClassId) (d : MethodDecl) :
    declareMethod id d = (fun m => { d with resolved := m.or d.resolved }) <$> enlist id d := by
  funext env
  have hTail : ∀ (className : String) (method : MethodId) (e : Env), (do
        if ← addMember d.line id className d.name (.ofMethod method) then
          if !d.synthetic then
            noteDeclared id d.kind
          return { d with resolved := some method }
        else
          return d) e =
        ((fun m => { d with resolved := m.or d.resolved }) <$> attach id className d method) e := by
    intro className method e
    rw [attach, map_bind]
    apply congrFun
    congr 1
    funext added
    cases added with
    | false => rfl
    | true => cases d.synthetic <;> rfl
  apply Logged.ext
  · simp only [declareMethod, enlist, record, value_bind, get_apply, map_bind, pure_apply,
      set_apply, hTail]
  · simp only [declareMethod, enlist, record, log_bind, value_bind, get_apply, map_bind, pure_apply,
      set_apply, hTail, nil_append, append_nil, append_assoc]

/-- Declare a member of a class. -/
def enroll (id : ClassId) (className : String) : Member → Analysis (Option MethodId)
  | .field d => do
    declareFields id className d
    return none
  | .method d => enlist id d

end Analysis

/-- A member that was declared in a class, a method under the number it got. -/
def Member.stamped (className : String) : Member → Option MethodId → Member
  | .field d, _ => .field { d with owner := some className }
  | .method d, m => .method { d with owner := some className, resolved := m.or d.resolved }

theorem Member.exists_of_mem_zipWith_stamped {className : String} {members : List Member}
    {ids : List (Option MethodId)} {member : Member}
    (h : member ∈ List.zipWith (stamped className) members ids) :
    ∃ original ∈ members, ∃ m, member = original.stamped className m := by
  rw [← map_uncurry_zip_eq_zipWith] at h
  obtain ⟨⟨original, m⟩, hPair, rfl⟩ := mem_map.mp h
  exact ⟨original, (of_mem_zip hPair).1, m, rfl⟩

/-- What stamping does not touch is the same in all members. -/
theorem Member.map_zipWith_stamped {β : Type} {f : Member → β} {className : String} {ids : List (Option MethodId)}
    (hStamped : ∀ member m, f (stamped className member m) = f member) (members : List Member)
    (hLength : ids.length = members.length) :
    (List.zipWith (stamped className) members ids).map f = members.map f := by
  induction members generalizing ids with
  | nil => rfl
  | cons member rest ih =>
    cases ids with
    | nil => cases hLength
    | cons m ids =>
      rw [zipWith_cons_cons, map_cons, hStamped, ih (Nat.succ.inj hLength), map_cons]

/-- The routine that a member stands for, once it is registered. -/
def Member.routine? : Member → Option MethodId
  | field _ => none
  | method d => d.resolved

/-- The routines that a class declares, in order. -/
def ClassDecl.routines (d : ClassDecl) : List MethodId := d.members.filterMap Member.routine?

/-- How many numbers a member takes. A method takes one even if it is refused. -/
def Member.demand : Member → Nat
  | .field _ => 0
  | .method _ => 1

namespace Analysis

theorem declareMember_eq (id : ClassId) (className : String) (member : Member) :
    declareMember id className member = member.stamped className <$> enroll id className member := by
  cases member with
  | field d => simp [declareMember, enroll, Member.stamped]
  | method d =>
    rw [declareMember, declareMethod_eq, bind_map_left]
    rfl

/-- Declaring the members of a class is to enroll all of them and then to stamp each with the number that it
got. -/
theorem mapM_declareMember (id : ClassId) (className : String) (members : List Member) (env : Env) :
    members.mapM (declareMember id className) env =
      ⟨(List.zipWith (Member.stamped className) members (members.mapM (enroll id className) env).value.1,
        (members.mapM (enroll id className) env).value.2),
        (members.mapM (enroll id className) env).log⟩ := by
  induction members generalizing env with
  | nil => rfl
  | cons member rest ih =>
    rw [mapM_cons_apply, mapM_cons_apply, declareMember_eq]
    simp only [value_map, log_map, ih, zipWith_cons_cons]

end Analysis

namespace ClassDecl

/-- Declare members of a class behind those it has, each method under the number it gets. -/
def extend (id : ClassId) (members : List Member) (d : ClassDecl) : Analysis ClassDecl := do
  let ids ← members.mapM (enroll id d.name)
  return { d with members := d.members ++ List.zipWith (Member.stamped d.name) members ids }

theorem extend_apply (id : ClassId) (members : List Member) (d : ClassDecl) (env : Env) :
    d.extend id members env = let ids := members.mapM (enroll id d.name) env
      ⟨({ d with members := d.members ++ List.zipWith (Member.stamped d.name) members ids.value.1 },
        ids.value.2), ids.log⟩ :=
  Logged.ext rfl (append_nil _)

theorem extend_append (id : ClassId) (members more : List Member) (d : ClassDecl) :
    d.extend id (members ++ more) = d.extend id members >>= extend id more := by
  funext env
  apply Logged.ext
  · simp only [value_bind, extend_apply, mapM_append_apply, append_assoc,
      zipWith_append (length_mapM (enroll id d.name) members env).symm]
  · simp only [log_bind, extend_apply, mapM_append_apply]

theorem map_members_extend {f : Member → γ} (hStamped : ∀ member m, f (Member.stamped d.name member m) = f member)
    (members : List Member) (env : Env) :
    (d.extend id members env).value.1.members.map f = (d.members ++ members).map f := by
  rw [extend_apply, map_append, map_append, Member.map_zipWith_stamped hStamped members (length_mapM _ _ _)]

/-- The members of a class are declared as if there were none before. -/
theorem declareMembers_eq (hResolved : d.resolved = some id) :
    d.declareMembers = extend id d.members { d with members := [] } := by
  funext env
  have hMembers := mapM_declareMember id d.name d.members env
  rw [extend_apply]
  apply Logged.ext
  · simp only [declareMembers, hResolved, value_bind, pure_apply, hMembers, nil_append]
  · simp only [declareMembers, hResolved, log_bind, pure_apply, hMembers, append_nil]

theorem graft_eq (d : ClassDecl) (id : ClassId) {method : MethodDecl} (hOwner : method.owner = some d.name) :
    d.graft id method = d.extend id [.method method] := by
  simp [graft, extend, declareMethod_eq, enroll, Member.stamped, ← hOwner]

/-- Add a routine to a class unless the class has what is wanted. -/
def supply (id : ClassId) (has : ClassInfo → Bool) (routine : ClassDecl → MethodDecl)
    (d : ClassDecl) : Analysis ClassDecl := do
  let env ← get
  if has (env.types.classInfo id) then pure d else d.graft id (routine d)

/-- A class is completed in three steps. -/
theorem complete_eq (hResolved : d.resolved = some id) : d.complete = (do
    modify fun env => { env with types := env.types.inheritFields id }
    let d ← d.supply id (·.hasConstructor) defaultConstructor
    d.supply id (·.destructor.isSome) defaultDestructor) := by
  rw [complete, hResolved]
  simp only [supply, bind_assoc]
  congr 1
  funext _
  congr 1
  funext env
  split <;> rfl

/-- To supply a routine is to declare it like another member, if it is missing. -/
theorem supply_apply (id : ClassId) (has : ClassInfo → Bool) {routine : ClassDecl → MethodDecl} {d : ClassDecl}
    (hOwner : (routine d).owner = some d.name) (env : Env) : d.supply id has routine env =
      d.extend id (if has (env.types.classInfo id) then [] else [.method (routine d)]) env := by
  have hGet : d.supply id has routine env = (if has (env.types.classInfo id) then pure d
      else d.graft id (routine d)) env := Logged.ext rfl (nil_append _)
  rw [hGet, graft_eq d id hOwner]
  split
  · simp [extend]
  · rfl

end ClassDecl

namespace Analysis

theorem env_resolveParams (method : String) (params : List Param) (known : Bindings) (env : Env) :
    (resolveParams method params known env).value.2 = env := by
  induction params generalizing known with
  | nil => rfl
  | cons p rest ih =>
    simp only [resolveParams, value_bind, value_read]
    cases known.add? p.name (env.resolveTypeName p.line p.type).value with
    | none => exact ih known
    | some extended => exact ih extended

theorem env_resolveReturn (className : String) (d : MethodDecl) (env : Env) :
    (resolveReturn className d env).value.2 = env := by
  cases hKind : d.kind <;> cases hReturns : d.returns <;> simp [resolveReturn, hKind, hReturns]

/-- The shape of a method is checked without a look at the environment. -/
theorem checkShape_apply (className : String) (d : MethodDecl) (env env' : Env) :
    (checkShape className d env).value.2 = env ∧
      (checkShape className d env').log = (checkShape className d env).log := by
  cases hKind : d.kind with
  | method => simp [checkShape, hKind]
  | constructor => by_cases hName : d.name = className <;> simp [checkShape, hKind, hName]
  | destructor => by_cases hParams : d.params.isEmpty <;> simp [checkShape, hKind, hParams]

/-- A method that is recorded gets the next number. -/
theorem record_apply (id : ClassId) (className : String) (d : MethodDecl) (env : Env) :
    record id className d env = let params := resolveParams d.name d.params [] env
      let returns := resolveReturn className d env
      ⟨(⟨env.size⟩, { env with
          types := (env.types.declareMethod id d.name d.kind params.value.1 returns.value.1).2 }),
        params.log ++ (returns.log ++ (checkShape className d env).log)⟩ := by
  apply Logged.ext
  · simp only [record, value_bind, get_apply, set_apply, pure_apply, env_resolveParams,
      env_resolveReturn, (checkShape_apply _ d _ env).1]
    rfl
  · simp only [record, log_bind, get_apply, set_apply, pure_apply, env_resolveParams,
      env_resolveReturn, append_nil]

theorem ne_ofMethod_resolveTypeName (env : Env) (line : Nat) (type : TypeName) (m : MethodId) :
    (env.resolveTypeName line type).value ≠ .ofMethod m := by
  cases type with
  | int => rintro ⟨⟩
  | named name =>
    rw [Env.resolveTypeName]
    split <;> rintro ⟨⟩

/-- No parameter has the type of a method. -/
theorem ne_ofMethod_resolveParams (method : String) (params : List Param) (known : Bindings)
    (env : Env) (hKnown : ∀ ty ∈ known.types, ∀ m, ty ≠ .ofMethod m) :
    ∀ ty ∈ (resolveParams method params known env).value.1.types, ∀ m, ty ≠ .ofMethod m := by
  induction params generalizing known env with
  | nil => exact hKnown
  | cons p rest ih =>
    have hTy := ne_ofMethod_resolveTypeName env p.line p.type
    simp only [resolveParams, value_bind, value_read]
    cases hAdd : known.add? p.name (env.resolveTypeName p.line p.type).value with
    | none => exact ih known env hKnown
    | some extended =>
      refine ih extended env ?_
      rw [(Bindings.add?_eq_some_iff.mp hAdd).2]
      intro ty hMem
      rw [Bindings.types, map_append, mem_append] at hMem
      rcases hMem with hMem | hMem
      · exact hKnown ty hMem
      · exact mem_singleton.mp hMem ▸ hTy

/-- A member is added, or it is reported with the line and the class and nothing is changed. -/
theorem addMember_apply (line : Nat) (id : ClassId) (className name : String) (ty : Ty) (env : Env) :
    addMember line id className name ty env = match env.types.addMember id name ty with
      | .ok types => ⟨(true, { env with types }), []⟩
      | .error member => ⟨(false, env), [⟨line, .redeclared member className⟩]⟩ := by
  cases hAdd : env.types.addMember id name ty with
  | ok types =>
    apply Logged.ext <;> simp [addMember, change_apply, Change.on_addMember, hAdd, Except.map, Except.toOption]
  | error member =>
    apply Logged.ext <;> simp [addMember, change_apply, Change.on_addMember, hAdd, Except.map, Except.toOption]

end Analysis

/-- The class once the program itself is known to declare a constructor or a destructor. -/
def ClassInfo.noted (kind : MethodKind) (c : ClassInfo) : ClassInfo :=
  match kind with
  | .constructor => { c with hasConstructor := true }
  | .destructor => { c with hasDestructor := true }
  | .method => c

namespace Analysis

/-- A method is added to its class or refused. -/
theorem attach_apply (id : ClassId) (className : String) (d : MethodDecl) (m : MethodId) (env : Env) :
    attach id className d m env = match env.types.addMethod id m with
      | .ok types => ⟨(some m, { env with
          types := if d.synthetic then types else types.updateClass id (.noted d.kind) }), []⟩
      | .error member => ⟨(none, env), [⟨d.line, .redeclared member className⟩]⟩ := by
  have hAdd := addMember_apply d.line id className d.name (.ofMethod m) env
  rw [addMember_ofMethod] at hAdd
  cases hMethod : env.types.addMethod id m with
  | error member =>
    rw [hMethod] at hAdd
    apply Logged.ext <;> simp [attach, hAdd]
  | ok types =>
    rw [hMethod] at hAdd
    cases hSynthetic : d.synthetic with
    | true => apply Logged.ext <;> simp [attach, hAdd, hSynthetic]
    | false =>
      apply Logged.ext
      · simp only [attach, value_bind, hAdd, hSynthetic]
        rfl
      · simp only [attach, log_bind, hAdd, hSynthetic]
        rfl

theorem enlist_apply (id : ClassId) (d : MethodDecl) (env : Env) : enlist id d env =
      (record id (env.types.classInfo id).name d >>= attach id (env.types.classInfo id).name d) env :=
  rfl

/-- What neither a new method nor a note about it changes in a class, enlisting does not change. -/
theorem own_enlist (g : ClassInfo → γ) (hId : id.index < env.types.classes.length) (d : MethodDecl)
    (hMethod : ∀ c m info, info.kind = d.kind → g (c.withMethod m info) = g c)
    (hNoted : ∀ c, g (c.noted d.kind) = g c) :
    g ((enlist id d env).value.2.types.classInfo id) = g (env.types.classInfo id) := by
  rw [enlist_apply]
  simp only [value_bind, record_apply, attach_apply]
  generalize hTypes : (env.types.declareMethod id d.name d.kind _ _).2 = declared
  have hKind : (declared.methodInfo ⟨env.size⟩).kind = d.kind := by
    rw [← hTypes, Env.size, methodInfo_declareMethod]
  have hOwn : declared.classInfo id = env.types.classInfo id := hTypes ▸ rfl
  have hId' : id.index < declared.classes.length := hTypes ▸ hId
  cases hAdd : declared.addMethod id ⟨env.size⟩ with
  | error member => exact congrArg g hOwn
  | ok types =>
    obtain ⟨-, hOutline, -, -, hSelf⟩ := addMethod_eq_ok hId' hAdd
    have hAdded : g (types.classInfo id) = g (env.types.classInfo id) := by
      rw [hSelf, hMethod _ _ _ hKind, hOwn]
    cases hSynthetic : d.synthetic with
    | true => simpa using hAdded
    | false =>
      have hId'' : id.index < types.classes.length := length_classes_of_outline hOutline ▸ hId'
      simpa [classInfo_updateClass_self types _ hId'', hNoted] using hAdded

/-- Adding a member records no method: a method has its record before it becomes a member. -/
theorem size_addMember (line : Nat) (id : ClassId) (className name : String) (ty : Ty) (env : Env) :
    (addMember line id className name ty env).value.2.size = env.size := by
  have hAdd : ∀ types, env.types.addMember id name ty = .ok types →
      types.methods = env.types.methods := by
    intro types hAdd
    rcases env.types.addMember_cases id name ty with ⟨m, -, hEq⟩ | ⟨-, hEq⟩
    · rw [hEq, Registry.addMethod] at hAdd
      split at hAdd
      · cases hAdd
      · split at hAdd <;> cases hAdd
        rfl
    · rw [hEq, Registry.addField] at hAdd
      split at hAdd <;> cases hAdd
      rfl
  rw [addMember_apply]
  cases hMember : env.types.addMember id name ty with
  | error member => rfl
  | ok types => exact congrArg List.length (hAdd types hMember)

variable (id)

/-- A method takes one number, whether it is added to its class or refused. -/
theorem size_enlist (d : MethodDecl) (env : Env) : (enlist id d env).value.2.size = env.size + 1 := by
  have hAttach : ∀ className m (e : Env), (attach id className d m e).value.2.size = e.size := by
    intro className m e
    rw [attach, value_bind, ← size_addMember d.line id className d.name (.ofMethod m) e]
    cases (addMember d.line id className d.name (.ofMethod m) e).value.1 with
    | false => rfl
    | true => cases d.synthetic <;> rfl
  rw [enlist_apply, value_bind, hAttach, record_apply]
  exact length_append

theorem value_enlist (d : MethodDecl) (env : Env) :
    (enlist id d env).value.1 = none ∨ (enlist id d env).value.1 = some ⟨env.size⟩ := by
  rw [enlist_apply, value_bind, attach_apply]
  simp only [record_apply]
  cases Registry.addMethod _ id ⟨env.size⟩ with
  | error member => exact .inl rfl
  | ok types => exact .inr rfl

variable (className : String)

theorem size_declareFields (d : FieldDecl) (env : Env) :
    (declareFields id className d env).value.2.size = env.size := by
  rw [declareFields, value_bind, value_read]
  generalize (env.resolveTypeName d.line d.type).value = ty
  induction d.names generalizing env with
  | nil => rfl
  | cons name rest ih =>
    rw [← size_addMember d.line id className name ty env]
    exact ih (addMember d.line id className name ty env).value.2

/-- What a member takes of the next numbers. -/
theorem enroll_takes (member : Member) (env : Env) :
    (enroll id className member env).value.2.size = env.size + member.demand ∧
      (enroll id className member env).value.1.toList.Sublist
        ((List.range' env.size member.demand).map MethodId.mk) := by
  cases member with
  | field d =>
    refine ⟨size_declareFields id className d env, ?_⟩
    exact nil_sublist _
  | method d =>
    refine ⟨size_enlist id d env, ?_⟩
    rw [enroll]
    rcases value_enlist id d env with hNone | hSome
    · rw [hNone]
      exact nil_sublist _
    · rw [hSome]
      exact .refl _

/-- Members take numbers one after the other. -/
theorem enrollAll_takes (members : List Member) (env : Env) :
    (members.mapM (enroll id className) env).value.2.size = env.size + (members.map Member.demand).sum ∧
      ((members.mapM (enroll id className) env).value.1.flatMap Option.toList).Sublist
        ((List.range' env.size (members.map Member.demand).sum).map MethodId.mk) := by
  induction members generalizing env with
  | nil => exact ⟨rfl, nil_sublist _⟩
  | cons member rest ih =>
    obtain ⟨hSize, hFirst⟩ := enroll_takes id className member env
    obtain ⟨hSizes, hRest⟩ := ih (enroll id className member env).value.2
    rw [hSize] at hSizes hRest
    rw [mapM_cons_apply, map_cons, sum_cons, ← range'_append_1, map_append]
    exact ⟨by rw [hSizes, Nat.add_assoc], hFirst.append hRest⟩

end Analysis

/-! What a declaration leaves alone. -/

namespace Analysis

variable {α β : Type} {f : α → Analysis β}

/-- Whatever is reported, only the class changes, and nothing that was recorded is lost. -/
def Enlarges (id : ClassId) (x : Analysis α) : Prop :=
  ∀ env : Env, id.index < env.types.classes.length → env.Grows id (x env).value.2

namespace Enlarges

theorem pure (a : α) : Enlarges id (Pure.pure a) := fun env _ => .refl id env

theorem read (f : Env → Checked α) : Enlarges id (Analysis.read f) := fun env _ => .refl id env

theorem report (line : Nat) (fault : Fault) : Enlarges id (Analysis.report line fault) := read _

theorem bind {x : Analysis α} (hx : Enlarges id x) (hf : ∀ a, Enlarges id (f a)) : Enlarges id (x >>= f) := by
  intro env hId
  have hFirst := hx env hId
  exact hFirst.trans (hf _ _ (length_classes_of_outline hFirst.types.outline ▸ hId))

theorem get_bind {f : Env → Analysis β} (hf : ∀ e, Enlarges id (f e)) :
    Enlarges id (MonadState.get >>= f) :=
  fun env hId => hf env env hId

theorem forM {f : α → Analysis Unit} (hf : ∀ a, Enlarges id (f a)) (as : List α) :
    Enlarges id (as.forM f) := by
  induction as with
  | nil => exact pure ()
  | cons a as ih => exact bind (hf a) fun _ => ih

theorem mapM (hf : ∀ a, Enlarges id (f a)) (as : List α) : Enlarges id (as.mapM f) := by
  induction as with
  | nil => exact pure []
  | cons a as ih =>
    rw [mapM_cons]
    exact bind (hf a) fun _ => bind ih fun _ => pure _

end Enlarges

theorem enlarges_addMember (line : Nat) (id : ClassId) (className name : String) (ty : Ty) :
    Enlarges id (addMember line id className name ty) := by
  intro env hId
  rw [addMember_apply]
  cases hAdd : env.types.addMember id name ty with
  | error member => exact .refl id env
  | ok types => exact .of_types (grows_addMember hId hAdd)

theorem enlarges_resolveParams (method : String) (params : List Param) (known : Bindings) :
    Enlarges id (resolveParams method params known) := by
  induction params generalizing known with
  | nil => exact .pure known
  | cons p rest ih =>
    refine .bind (.read _) fun ty => ?_
    split
    · exact ih _
    · exact .bind (.report _ _) fun _ => ih _

variable (className : String) (d : MethodDecl)

theorem enlarges_resolveReturn : Enlarges id (resolveReturn className d) := by
  unfold resolveReturn
  split
  · exact .bind (.read _) fun _ => .pure _
  · exact .bind (.report _ _) fun _ => .pure _
  · exact .bind (.report _ _) fun _ => .pure _
  · exact .pure _

/-- Checks of a heading change nothing in the registry, whatever they report. -/
theorem enlarges_checkShape : Enlarges id (checkShape className d) := by
  rw [checkShape]
  split
  · split
    · exact .pure ()
    · exact .report _ _
  · split
    · exact .pure ()
    · exact .report _ _
  · exact .pure ()

theorem enlarges_record : Enlarges id (record id className d) := by
  refine .bind (enlarges_resolveParams _ _ _) fun params => ?_
  refine .bind (enlarges_resolveReturn _ d) fun returns => .bind (enlarges_checkShape _ d) fun _ => ?_
  intro env _
  exact .of_types (grows_declareMethod id d.name d.kind params returns id env.types)

theorem enlarges_noteDeclared (kind : MethodKind) : Enlarges id (noteDeclared id kind) := by
  intro env _
  refine .of_types (KeepsDeclarations.grows ?_ env.types)
  cases kind <;> constructor <;> exact fun _ => rfl

theorem enlarges_attach (m : MethodId) : Enlarges id (attach id className d m) := by
  refine .bind (enlarges_addMember _ _ _ _ _) fun added => ?_
  cases added with
  | false => exact .pure none
  | true =>
    cases d.synthetic with
    | true => exact .pure _
    | false => exact .bind (enlarges_noteDeclared d.kind) fun _ => .pure _

theorem enlarges_enlist : Enlarges id (enlist id d) :=
  .get_bind fun _ => .bind (enlarges_record _ d) fun m => enlarges_attach _ d m

theorem enlarges_enroll (member : Member) : Enlarges id (enroll id className member) := by
  cases member with
  | method d => exact enlarges_enlist d
  | field d =>
    refine .bind (.bind (.read _) fun ty => .forM (fun name => ?_) d.names) fun _ => .pure none
    exact .bind (enlarges_addMember _ _ _ _ _) fun _ => .pure ()

end Analysis

/-- How many numbers the members of a class take. -/
def ClassDecl.demand (d : ClassDecl) : Nat := (d.members.map Member.demand).sum

/-- How many routines a class lacks. -/
def ClassInfo.lacking (c : ClassInfo) : Nat :=
  (if c.hasConstructor then 0 else 1) + (if c.destructor.isSome then 0 else 1)

namespace ClassDecl

variable {d : ClassDecl}

theorem enlarges_extend (members : List Member) (d : ClassDecl) : Enlarges id (d.extend id members) :=
  .bind (.mapM (enlarges_enroll d.name) members) fun _ => .pure _

theorem enlarges_declareMembers (hResolved : d.resolved = some id) : Enlarges id d.declareMembers :=
  declareMembers_eq hResolved ▸ enlarges_extend _ _

/-- What a class may be given when it is completed. -/
def defaults (d : ClassDecl) : List Member := [.method d.defaultConstructor, .method d.defaultDestructor]

/-- Which routines a class lacks. -/
def missing (d : ClassDecl) (info : ClassInfo) : List Member :=
  (if info.hasConstructor then [] else [.method d.defaultConstructor]) ++
    if info.destructor.isSome then [] else [.method d.defaultDestructor]

theorem demand_missing (d : ClassDecl) (info : ClassInfo) :
    ((d.missing info).map Member.demand).sum = info.lacking := by
  rw [missing, ClassInfo.lacking, map_append, sum_append]
  split <;> split <;> rfl

theorem exists_of_mem_defaults {member : Member} (h : member ∈ d.defaults) :
    ∃ e, member = .method e ∧ e.resolved = none := by
  rw [defaults, mem_pair] at h
  rcases h with rfl | rfl <;> exact ⟨_, rfl, rfl⟩

theorem routine_of_mem_defaults {member : Member} (h : member ∈ d.defaults) : member.routine? = none := by
  obtain ⟨e, rfl, hNone⟩ := exists_of_mem_defaults h
  exact hNone

/-- A class that is completed first inherits fields. Then the routines that it lacks are declared like
other members. -/
theorem exists_complete (hResolved : d.resolved = some id) (env : Env) : ∃ wanted,
    wanted.Sublist d.defaults ∧
      (id.index < env.types.classes.length → wanted = d.missing (env.types.classInfo id)) ∧
      d.complete env = d.extend id wanted { env with types := env.types.inheritFields id } := by
  obtain ⟨start, hStart⟩ : ∃ start : Env, start = { env with types := env.types.inheritFields id } := ⟨_, rfl⟩
  have hSub : ∀ (has : Bool) (member : Member), (if has then [] else [member]).Sublist [member] := by
    intro has member
    cases has <;> simp
  generalize hFirst : (if (start.types.classInfo id).hasConstructor then []
    else [Member.method d.defaultConstructor]) = first
  have hSupply : d.supply id (·.hasConstructor) defaultConstructor start = d.extend id first start :=
    hFirst ▸ supply_apply id _ rfl start
  generalize hSecond : (if ((d.extend id first start).value.2.types.classInfo id).destructor.isSome then []
    else [Member.method d.defaultDestructor]) = second
  refine ⟨first ++ second, ?_, fun hId => ?_, ?_⟩
  · rw [← hFirst, ← hSecond]
    exact (hSub _ _).append (hSub _ _)
  · have hInfo : start.types.classInfo id = { env.types.classInfo id with
        members.names := (env.types.classInfo id).members.names.extend (env.types.inheritedFields id) } := by
      rw [hStart]
      exact classInfo_updateClass_self _ _ hId
    -- The constructor that comes first is no destructor.
    have hKept : ((d.extend id first start).value.2.types.classInfo id).destructor.isSome =
        (start.types.classInfo id).destructor.isSome := by
      rw [← hFirst]
      split
      · rfl
      · refine own_enlist (fun i => i.destructor.isSome) ?_ d.defaultConstructor ?_ fun _ => rfl
        · rwa [hStart, length_classes_inheritFields]
        · intro i m info hKind
          simp [ClassInfo.withMethod, hKind, defaultConstructor]
    rw [← hFirst, ← hSecond, hKept, hInfo]
    rfl
  · have hRest : (d.extend id first start).value.1.supply id (·.destructor.isSome) defaultDestructor
        (d.extend id first start).value.2 =
        (d.extend id first start).value.1.extend id second (d.extend id first start).value.2 :=
      hSecond ▸ supply_apply id _ rfl _
    rw [complete_eq hResolved, extend_append, ← hStart]
    apply Logged.ext <;> simp only [value_bind, log_bind, modify_apply, ← hStart, hSupply, hRest, nil_append]

/-- Completing a class changes no other class, and it keeps what was recorded before. -/
theorem enlarges_complete (hResolved : d.resolved = some id) : Enlarges id d.complete := by
  intro env hId
  obtain ⟨wanted, -, -, hComplete⟩ := exists_complete hResolved env
  have hInherit : Enlarges id (modify fun env : Env => { env with types := env.types.inheritFields id }) := by
    intro env _
    refine .of_types (KeepsDeclarations.grows ?_ env.types)
    constructor <;> exact fun _ => rfl
  rw [hComplete]
  exact (hInherit.bind fun _ => enlarges_extend wanted d) env hId

/-- What no declaration of a routine spoils, completing a class does not spoil once fields are inherited. -/
theorem complete_induction {P : Env → Prop} (hEnlist : ∀ (e : MethodDecl) (env : Env),
      id.index < env.types.classes.length → P env → P (enlist id e env).value.2)
    (hResolved : d.resolved = some id) (hId : id.index < env.types.classes.length)
    (h : P { env with types := env.types.inheritFields id }) : P (d.complete env).value.2 := by
  obtain ⟨wanted, hSub, -, hComplete⟩ := exists_complete hResolved env
  have hWanted : ∀ member ∈ wanted, ∃ e, member = .method e ∧ e.resolved = none :=
    fun member hMember => exists_of_mem_defaults (hSub.subset hMember)
  have hId' : id.index < (env.types.inheritFields id).classes.length := by
    rwa [length_classes_inheritFields]
  rw [hComplete, extend_apply]
  generalize hStart : ({ env with types := env.types.inheritFields id } : Env) = start at h
  replace hId' : id.index < start.types.classes.length := hStart ▸ hId'
  clear hStart hComplete hSub
  induction wanted generalizing start with
  | nil => exact h
  | cons member rest ih =>
    rw [forall_mem_cons] at hWanted
    obtain ⟨⟨e, rfl, -⟩, hRest⟩ := hWanted
    have hGrown := enlarges_enlist e start hId'
    rw [mapM_cons_apply]
    exact ih hRest _ (hEnlist e start hId' h) (length_classes_of_outline hGrown.types.outline ▸ hId')

/-- Completing a class declares no fields. -/
theorem fields_complete (hResolved : d.resolved = some id) (hId : id.index < env.types.classes.length) :
    ((d.complete env).value.2.types.classInfo id).fields = (env.types.classInfo id).fields := by
  refine complete_induction (P := fun e => (e.types.classInfo id).fields = (env.types.classInfo id).fields)
    ?_ hResolved hId ?_
  · intro e env hId h
    exact (own_enlist ClassInfo.fields hId e (fun _ _ _ _ => rfl) fun _ => by cases e.kind <;> rfl).trans h
  · rw [inheritFields, classInfo_updateClass_self _ _ hId]

theorem value_buildVMT (d : ClassDecl) (env : Env) : (d.buildVMT env).value.1 = d := by
  cases hResolved : d.resolved with
  | none =>
    have hPure : d.buildVMT = pure d := by rw [buildVMT, hResolved]
    rw [hPure]
    rfl
  | some id => simp only [buildVMT, hResolved, value_bind, pure_apply]

theorem enlarges_buildVMT (hResolved : d.resolved = some id) : Enlarges id d.buildVMT := by
  rw [buildVMT, hResolved]
  refine .bind ?_ fun _ => .pure d
  intro env _
  refine .of_types (KeepsDeclarations.grows ?_ env.types)
  constructor <;> exact fun _ => rfl

/-- No step over members changes the number that a class was registered under. -/
theorem resolved_declareMembers (d : ClassDecl) (env : Env) :
    (d.declareMembers env).value.1.resolved = d.resolved := by
  cases hResolved : d.resolved with
  | none =>
    rw [declareMembers, hResolved]
    exact hResolved
  | some id =>
    rw [declareMembers_eq hResolved]
    exact hResolved

theorem resolved_complete (d : ClassDecl) (env : Env) :
    (d.complete env).value.1.resolved = d.resolved := by
  cases hResolved : d.resolved with
  | none =>
    rw [complete, hResolved]
    exact hResolved
  | some id =>
    obtain ⟨wanted, -, -, hComplete⟩ := exists_complete hResolved env
    rw [hComplete]
    exact hResolved

end ClassDecl
end TLang
