import TLang.Proofs.Registry.Dispatch
import TLang.Proofs.Registry.Outline

/-! What the tables of a registry say of each other while members are declared: the method table of a
class lists its methods under their signatures, and the record of a method agrees with the class
that declares it. Every way in which a declaration changes the registry keeps this. -/
namespace TLang.ClassInfo

/-- The class with a method behind those it has, in its list and in its table. -/
def withMethod (c : ClassInfo) (m : MethodId) (info : MethodInfo) : ClassInfo :=
  { c with
    members := { c.members with methods := c.members.methods ++ [(info.signature, .ofMethod m)] }
    destructor := if info.kind = .destructor then some m else c.destructor
    methods := c.methods ++ [m] }

/-- The class with a field behind those it has. -/
def withField (c : ClassInfo) (name : String) (ty : Ty) : ClassInfo :=
  { c with
    members := { c.members with names := c.members.names ++ [(name, ty)] }
    fields := c.fields ++ [(name, ty)] }

end TLang.ClassInfo

namespace TLang.Registry

variable {r r' : Registry}

/-- The record of a routine of class `c`. All its types are known, and its signature and its label
are those computed from its name and its parameters. -/
structure RoutineOf (r : Registry) (c : ClassId) (m : MethodInfo) : Prop where
  owner : m.owner = c
  signature : m.signature = r.signature m.name m.kind m.params.types
  label : m.label = (r.classInfo c).name ++ "$" ++ m.signature
  params : ∀ ty ∈ m.params.types, r.IsStored ty
  returns : m.kind = .method → ∃ ty, m.returns = some ty ∧ r.IsStored ty
  named : m.kind = .constructor → m.name = (r.classInfo c).name

/-- What a routine is asked for is read from names and parents, so it lasts while these stay. -/
theorem RoutineOf.of_outline {c : ClassId} {m : MethodInfo} (hRoutine : r.RoutineOf c m)
    (h : r'.outline = r.outline) : r'.RoutineOf c m where
  owner := hRoutine.owner
  signature := by
    rw [signature_of_outline h _ _ fun ty hTy => (hRoutine.params ty hTy).ne_ofMethod, ← hRoutine.signature]
  label := by rw [name_of_outline h, ← hRoutine.label]
  params := fun ty hTy => (isStored_of_outline h ty).mpr (hRoutine.params ty hTy)
  returns := by
    intro hKind
    obtain ⟨ty, hReturns, hTy⟩ := hRoutine.returns hKind
    exact ⟨ty, hReturns, (isStored_of_outline h ty).mpr hTy⟩
  named := fun hKind => by rw [name_of_outline h, hRoutine.named hKind]

/-- The tables of one class agree, and its plain methods have names that `names` allows. -/
structure CoherentAt (names : String → Prop) (r : Registry) (c : ClassId) : Prop where
  table : (r.classInfo c).members.methods =
    (r.classInfo c).methods.map fun m => ((r.methodInfo m).signature, .ofMethod m)
  distinct : ((r.classInfo c).methods.map fun m => (r.methodInfo m).signature).Nodup
  bounded : ∀ m ∈ (r.classInfo c).methods, m.index < r.methods.length
  routine : ∀ m ∈ (r.classInfo c).methods, r.RoutineOf c (r.methodInfo m)
  named : ∀ m ∈ (r.classInfo c).methods, (r.methodInfo m).kind = .method → names (r.methodInfo m).name
  fields : ∀ f ∈ (r.classInfo c).fields, r.IsStored f.2

/-- The tables of all classes agree. -/
def Coherent (names : String → Prop) (r : Registry) : Prop := ∀ c, r.CoherentAt names c

theorem Coherent.distinct {names : String → Prop} (h : r.Coherent names) : r.SignaturesDistinct :=
  fun c => (h c).distinct

/-- A method that was recorded keeps its record when others are recorded behind it. -/
theorem methodInfo_of_prefix (h : r.methods <+: r'.methods) {m : MethodId}
    (hm : m.index < r.methods.length) : r'.methodInfo m = r.methodInfo m := by
  obtain ⟨added, hAdded⟩ := h
  simp [methodInfo, ← hAdded, List.getElem?_append_left hm]

/-- No body was typed so far. -/
def Bare (r : Registry) : Prop := ∀ m ∈ r.methods, m.locals = {}

theorem Bare.locals (h : r.Bare) (m : MethodId) : (r.methodInfo m).locals = {} := by
  rw [methodInfo]
  cases hInfo : r.methods[m.index]? with
  | none => rfl
  | some info => exact h info (List.mem_of_getElem? hInfo)

/-- Nothing that was recorded is lost, and no body is typed meanwhile. -/
structure Extends (r r' : Registry) : Prop where
  outline : r'.outline = r.outline
  methods : r.methods <+: r'.methods
  bare : r.Bare → r'.Bare
  own : ∀ c, (r.classInfo c).methods <+: (r'.classInfo c).methods
  destructor : ∀ c, (r.classInfo c).destructor.isSome → (r'.classInfo c).destructor.isSome

namespace Extends

theorem refl (r : Registry) : Extends r r where
  outline := rfl
  methods := List.prefix_rfl
  bare := fun h => h
  own := fun _ => List.prefix_rfl
  destructor := fun _ h => h

theorem trans {r'' : Registry} (h : Extends r r') (h' : Extends r' r'') : Extends r r'' where
  outline := h'.outline.trans h.outline
  methods := h.methods.trans h'.methods
  bare := h'.bare ∘ h.bare
  own := fun c => (h.own c).trans (h'.own c)
  destructor := fun c hSome => h'.destructor c (h.destructor c hSome)

end Extends

/-- How the registry may change while the members of one class are declared. Nothing that was
recorded is lost, and the other classes stay as they are. -/
structure Grows (id : ClassId) (r r' : Registry) : Prop where
  outline : r'.outline = r.outline
  others : ∀ c, c ≠ id → r'.classInfo c = r.classInfo c
  methods : r.methods <+: r'.methods
  bare : r.Bare → r'.Bare
  own : (r.classInfo id).methods <+: (r'.classInfo id).methods
  destructor : (r.classInfo id).destructor.isSome → (r'.classInfo id).destructor.isSome

namespace Grows

variable {id : ClassId}

theorem refl (id : ClassId) (r : Registry) : Grows id r r where
  outline := rfl
  others := fun _ _ => rfl
  methods := List.prefix_rfl
  bare := fun h => h
  own := List.prefix_rfl
  destructor := fun h => h

theorem trans {r'' : Registry} (h : Grows id r r') (h' : Grows id r' r'') : Grows id r r'' where
  outline := h'.outline.trans h.outline
  others := fun c hc => (h'.others c hc).trans (h.others c hc)
  methods := h.methods.trans h'.methods
  bare := h'.bare ∘ h.bare
  own := h.own.trans h'.own
  destructor := fun hSome => h'.destructor (h.destructor hSome)

/-- A registry that grows at one class is extended as a whole, since the other classes are as they were. -/
theorem extension (h : Grows id r r') : Extends r r' where
  outline := h.outline
  methods := h.methods
  bare := h.bare
  own := by
    intro c
    by_cases hc : c = id
    · exact hc ▸ h.own
    · exact h.others c hc ▸ List.prefix_rfl
  destructor := by
    intro c
    by_cases hc : c = id
    · exact hc ▸ h.destructor
    · rw [h.others c hc]
      exact fun hSome => hSome

end Grows

section UpdateClass

variable {id : ClassId} {f : ClassInfo → ClassInfo}

/-- An update shows only in what it changes. -/
theorem classInfo_updateClass_congr {α : Type} (g : ClassInfo → α) (hf : ∀ c, g (f c) = g c)
    (r : Registry) (c : ClassId) :
    g ((r.updateClass id f).classInfo c) = g (r.classInfo c) := by
  by_cases hc : c = id
  · subst hc
    by_cases hLt : c.index < r.classes.length
    · rw [classInfo_updateClass_self r f hLt, hf]
    · simp [classInfo, updateClass, List.getElem?_eq_none (Nat.le_of_not_lt hLt)]
  · rw [classInfo_updateClass_of_ne r f hc]

theorem outline_updateClass (hName : ∀ c, (f c).name = c.name) (hParent : ∀ c, (f c).parent = c.parent)
    (r : Registry) : (r.updateClass id f).outline = r.outline :=
  congrArg (·, r.byName) (map_updateClass (fun info => by rw [hName, hParent]) r id)

/-- An update that leaves the declarations of a class alone. -/
structure KeepsDeclarations (f : ClassInfo → ClassInfo) : Prop where
  name : ∀ c, (f c).name = c.name
  parent : ∀ c, (f c).parent = c.parent
  table : ∀ c, (f c).members.methods = c.members.methods
  methods : ∀ c, (f c).methods = c.methods
  fields : ∀ c, (f c).fields = c.fields
  destructor : ∀ c, (f c).destructor = c.destructor

/-- An update of a record that keeps what is declared there lets the registry grow. -/
theorem KeepsDeclarations.grows (hf : KeepsDeclarations f) (r : Registry) :
    Grows id r (r.updateClass id f) where
  outline := outline_updateClass hf.name hf.parent r
  others := fun c hc => classInfo_updateClass_of_ne r f hc
  methods := List.prefix_rfl
  bare := fun h => h
  own := classInfo_updateClass_congr _ hf.methods r id ▸ List.prefix_rfl
  destructor := by
    rw [classInfo_updateClass_congr ClassInfo.destructor hf.destructor]
    exact fun h => h

end UpdateClass

section DeclareMethod

variable (owner : ClassId) (name : String) (kind : MethodKind) (params : Bindings)
  (returns : Option Ty)

/-- Recording a method changes no class at all, not even the one it is recorded for. -/
theorem grows_declareMethod (id : ClassId) (r : Registry) :
    Grows id r (r.declareMethod owner name kind params returns).2 where
  outline := rfl
  others := fun _ _ => rfl
  methods := List.prefix_append _ _
  bare := by
    intro h m hm
    rcases List.mem_append.mp hm with hm | hm
    · exact h m hm
    · rw [List.mem_singleton.mp hm]
  own := List.prefix_rfl
  destructor := fun h => h

theorem methodInfo_declareMethod (r : Registry) :
    (r.declareMethod owner name kind params returns).2.methodInfo ⟨r.methods.length⟩ =
      { name, owner, kind, params, returns
        signature := r.signature name kind params.types
        label := (r.classInfo owner).name ++ "$" ++ r.signature name kind params.types } := by
  simp [methodInfo, Registry.declareMethod]

end DeclareMethod

section

variable (r)

/-- An update of a class depends on what it makes of the record that is there. -/
theorem updateClass_congr {id : ClassId} {f g : ClassInfo → ClassInfo}
    (h : f (r.classInfo id) = g (r.classInfo id)) : r.updateClass id f = r.updateClass id g := by
  have hClasses : r.classes.modify id.index f = r.classes.modify id.index g := by
    apply List.ext_getElem?
    intro i
    rw [List.getElem?_modify, List.getElem?_modify]
    by_cases hi : id.index = i
    · subst hi
      cases hc : r.classes[id.index]? with
      | none => rfl
      | some c =>
        rw [classInfo, hc] at h
        simpa using h
    · simp [hi]
  rw [updateClass, updateClass, hClasses]

variable (id : ClassId)

theorem updateClass_updateClass (f g : ClassInfo → ClassInfo) :
    (r.updateClass id f).updateClass id g = r.updateClass id (g ∘ f) := by
  simp [updateClass, List.modify_modify_eq]

/-- The registry with one more method of a class, unless there is one like it. -/
def addMethod (r : Registry) (id : ClassId) (m : MethodId) : Except Redeclaration Registry :=
  if (r.methodInfo m).kind = .destructor ∧ (r.classInfo id).destructor.isSome then .error .destructor
  else if (r.methodInfo m).signature ∈ (r.classInfo id).members.methods.names then
    .error (.method (r.methodInfo m).signature)
  else .ok (r.updateClass id (·.withMethod m (r.methodInfo m)))

/-- The registry with one more field of a class, unless a member has its name. -/
def addField (r : Registry) (id : ClassId) (name : String) (ty : Ty) : Except Redeclaration Registry :=
  if name ∈ (r.classInfo id).members.names.names then .error (.field name)
  else .ok (r.updateClass id (·.withField name ty))

namespace Change

theorem on_addMethod (id : ClassId) (m : MethodId) (r : Registry) : (addMethod id m).on r =
    ((r.addMethod id m).map fun _ => (), (r.addMethod id m).toOption.getD r) := by
  simp only [addMethod, on_get_bind, SymbolTable.installMethod?, Registry.addMethod]
  by_cases hDestructor : (r.methodInfo m).kind = .destructor ∧ (r.classInfo id).destructor.isSome
  · simp [hDestructor, Except.map, Except.toOption]
  · rw [if_neg hDestructor, if_neg hDestructor]
    by_cases hTaken : (r.methodInfo m).signature ∈ (r.classInfo id).members.methods.names
    · rw [if_pos hTaken, Bindings.add?_eq_none_iff.mpr hTaken]
      rfl
    · rw [if_neg hTaken, Bindings.add?_eq_some_iff.mpr ⟨hTaken, rfl⟩]
      by_cases hKind : (r.methodInfo m).kind = .destructor <;>
        simp only [Option.map_some, on_modify_bind, on_modify, hKind, if_true, if_false,
          updateClass_updateClass] <;>
        exact congrArg (Prod.mk _) (r.updateClass_congr (by simp [ClassInfo.withMethod, hKind]))

theorem on_addField (id : ClassId) (name : String) (ty : Ty) (r : Registry) : (addField id name ty).on r =
    ((r.addField id name ty).map fun _ => (), (r.addField id name ty).toOption.getD r) := by
  simp only [addField, on_get_bind, SymbolTable.install?, Registry.addField]
  by_cases hTaken : name ∈ (r.classInfo id).members.names.names
  · rw [if_pos hTaken, Bindings.add?_eq_none_iff.mpr hTaken]
    rfl
  · rw [if_neg hTaken, Bindings.add?_eq_some_iff.mpr ⟨hTaken, rfl⟩]
    simp only [Option.map_some, on_modify_bind, on_modify, updateClass_updateClass]
    exact congrArg (Prod.mk _) (r.updateClass_congr rfl)

end Change

variable (name : String)

theorem addMember_ofMethod (m : MethodId) : r.addMember id name (.ofMethod m) = r.addMethod id m := by
  rw [addMember, Change.outcome, Change.addMember, Change.on_addMethod]
  cases r.addMethod id m <;> rfl

theorem addMember_eq_addField {ty : Ty}
    (hTy : ∀ m, ty ≠ .ofMethod m) : r.addMember id name ty = r.addField id name ty := by
  have hField : Change.addMember id name ty = Change.addField id name ty := by
    cases ty with
    | ofMethod m => exact absurd rfl (hTy m)
    | _ => rfl
  rw [addMember, Change.outcome, hField, Change.on_addField]
  cases r.addField id name ty <;> rfl

/-- A member is a method or a field. -/
theorem addMember_cases (ty : Ty) :
    (∃ m, ty = .ofMethod m ∧ r.addMember id name ty = r.addMethod id m) ∨
      (∀ m, ty ≠ .ofMethod m) ∧ r.addMember id name ty = r.addField id name ty := by
  by_cases hTy : ∃ m, ty = .ofMethod m
  · obtain ⟨m, rfl⟩ := hTy
    exact .inl ⟨m, rfl, r.addMember_ofMethod id name m⟩
  · rw [not_exists] at hTy
    exact .inr ⟨hTy, r.addMember_eq_addField id name hTy⟩

/-- A member is added, or it is refused and the registry stays as it was. -/
theorem Change.on_addMember (ty : Ty) (r : Registry) : (addMember id name ty).on r =
      ((r.addMember id name ty).map fun _ => (), (r.addMember id name ty).toOption.getD r) := by
  cases ty with
  | ofMethod m => exact r.addMember_ofMethod id name m ▸ on_addMethod id m r
  | _ =>
    rw [addMember_eq_addField r id name (by rintro _ ⟨⟩)]
    exact on_addField id name _ r

theorem length_classes_inheritFields : (r.inheritFields id).classes.length = r.classes.length :=
  length_classes_updateClass _ _ _

end

/-- Only registered classes declare routines. -/
theorem registered_of_mem {c : ClassId} {m : MethodId} (hm : m ∈ (r.classInfo c).methods) :
    c.index < r.classes.length := by
  by_contra hOut
  simp [classInfo, List.getElem?_eq_none (Nat.le_of_not_lt hOut)] at hm

/-- A method that is added has a new signature, and only its class changes. -/
theorem addMethod_eq_ok {id : ClassId} {m : MethodId} (hId : id.index < r.classes.length)
    (h : r.addMethod id m = .ok r') :
    (r.methodInfo m).signature ∉ (r.classInfo id).members.methods.names ∧
      r'.outline = r.outline ∧ r'.methods = r.methods ∧
      (∀ c, c ≠ id → r'.classInfo c = r.classInfo c) ∧
      r'.classInfo id = (r.classInfo id).withMethod m (r.methodInfo m) := by
  rw [Registry.addMethod] at h
  split at h
  · cases h
  · split at h
    · cases h
    · rename_i hNew
      cases h
      exact ⟨hNew, outline_updateClass (by intro; rfl) (by intro; rfl) r, rfl,
        fun c hc => classInfo_updateClass_of_ne r _ hc, classInfo_updateClass_self r _ hId⟩

/-- A field that is added has a new name among all members, and only its class changes. -/
theorem addField_eq_ok {id : ClassId} {name : String} {ty : Ty} (hId : id.index < r.classes.length)
    (h : r.addField id name ty = .ok r') :
    name ∉ (r.classInfo id).members.names.names ∧ r'.outline = r.outline ∧ r'.methods = r.methods ∧
      (∀ c, c ≠ id → r'.classInfo c = r.classInfo c) ∧
      r'.classInfo id = (r.classInfo id).withField name ty := by
  rw [Registry.addField] at h
  split at h
  · cases h
  · rename_i hNew
    cases h
    exact ⟨hNew, outline_updateClass (by intro; rfl) (by intro; rfl) r, rfl,
      fun c hc => classInfo_updateClass_of_ne r _ hc, classInfo_updateClass_self r _ hId⟩

section AddMember

variable {names : String → Prop} {id : ClassId}

/-- A method that is accepted is added to its class and to no other. -/
theorem grows_addMethod {m : MethodId} (hId : id.index < r.classes.length)
    (h : r.addMethod id m = .ok r') : Grows id r r' := by
  obtain ⟨-, hOutline, hMethods, hOthers, hSelf⟩ := addMethod_eq_ok hId h
  refine ⟨hOutline, hOthers, hMethods ▸ List.prefix_rfl, by simp only [Bare, hMethods, imp_self], ?_, ?_⟩
  · rw [hSelf]
    exact List.prefix_append _ _
  · rw [hSelf]
    intro hSome
    by_cases hKind : (r.methodInfo m).kind = .destructor <;>
      simp [ClassInfo.withMethod, hKind, hSome]

theorem grows_addField {name : String} {ty : Ty} (hId : id.index < r.classes.length)
    (h : r.addField id name ty = .ok r') : Grows id r r' := by
  obtain ⟨-, hOutline, hMethods, hOthers, hSelf⟩ := addField_eq_ok hId h
  refine ⟨hOutline, hOthers, hMethods ▸ List.prefix_rfl, by simp only [Bare, hMethods, imp_self], ?_, ?_⟩
  · rw [hSelf]
    exact List.prefix_rfl
  · rw [hSelf]
    exact fun hSome => hSome

theorem grows_addMember {name : String} {ty : Ty} (hId : id.index < r.classes.length)
    (h : r.addMember id name ty = .ok r') : Grows id r r' := by
  rcases r.addMember_cases id name ty with ⟨m, -, hAdd⟩ | ⟨-, hAdd⟩
  · exact grows_addMethod hId (hAdd ▸ h)
  · exact grows_addField hId (hAdd ▸ h)

end AddMember

end TLang.Registry
