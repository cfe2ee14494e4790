import TLang.Proofs.Registry.Consistency
import TLang.Registry.Initial

/-! How a registry comes about: a new one is changed by calls, in any order, whose numbers were handed out
before. What its tables say of each other holds after every call, and a call that is refused changes
nothing. -/
namespace TLang.Registry

open List

variable {r r' : Registry} {c id : ClassId}

/-- The number in a type, if there is one, was handed out. -/
def Knows (r : Registry) : Ty → Prop
  | .ofClass c => c.index < r.classes.length
  | .ofMethod m => m.index < r.methods.length
  | _ => True

instance (r : Registry) : DecidablePred r.Knows
  | .ofClass c => inferInstanceAs (Decidable (c.index < _))
  | .ofMethod m => inferInstanceAs (Decidable (m.index < _))
  | .int | .null | .untyped | .error | .address => .isTrue trivial

/-- A call that changes a registry. -/
inductive Call where
  | registerClass (name : String)
  | setParent (c parent : ClassId)
  | declareMethod (owner : ClassId) (name : String) (kind : MethodKind) (params : Bindings)
      (returns : Option Ty)
  | addMember (c : ClassId) (name : String) (ty : Ty)
  | inheritFields (c : ClassId)
  | buildVMT (c : ClassId)

namespace Call

/-- Why a call is refused. -/
inductive Refusal where
  | className (name : String)
  | member (redeclaration : Redeclaration)

/-- The numbers that a call is given were handed out. -/
def IsKnown (r : Registry) : Call → Prop
  | registerClass _ => True
  | setParent c parent => c.index < r.classes.length ∧ parent.index < r.classes.length
  | declareMethod owner _ _ params returns =>
    owner.index < r.classes.length ∧ ∀ ty ∈ params.types ++ returns.toList, r.Knows ty
  | addMember c _ ty => c.index < r.classes.length ∧ r.Knows ty
  | inheritFields c | buildVMT c => c.index < r.classes.length

/-- Carry out a call. A call that can be refused takes its steps one after the other, and the registry is
as the last of them left it. -/
def on (r : Registry) : Call → Except Refusal Unit × Registry
  | registerClass name =>
    let (answer, r') := (Change.registerClass name).on r
    ((answer.map fun _ => ()).mapError .className, r')
  | setParent c parent => (.ok (), r.setParent c parent)
  | declareMethod owner name kind params returns =>
    (.ok (), (r.declareMethod owner name kind params returns).2)
  | addMember c name ty =>
    let (answer, r') := (Change.addMember c name ty).on r
    (answer.mapError .member, r')
  | inheritFields c => (.ok (), r.inheritFields c)
  | buildVMT c => (.ok (), r.buildVMT c)

/-- Whether a call is refused, and why. -/
def answer (r : Registry) (call : Call) : Except Refusal Unit := (call.on r).1

/-- The registry after a call, refused or not. -/
def apply (r : Registry) (call : Call) : Registry := (call.on r).2

/-- What a call would add is there already. -/
inductive Repeats (r : Registry) : Call → Refusal → Prop where
  | className {name : String} (taken : name ∈ r.classes.map ClassInfo.name) :
      Repeats r (registerClass name) (.className name)
  | destructor {c : ClassId} {name : String} {m : MethodId} (kind : (r.methodInfo m).kind = .destructor)
      (taken : ∃ k ∈ (r.classInfo c).methods, (r.methodInfo k).kind = .destructor) :
      Repeats r (addMember c name (.ofMethod m)) (.member .destructor)
  | method {c : ClassId} {name : String} {m : MethodId}
      (taken : ∃ k ∈ (r.classInfo c).methods, (r.methodInfo k).signature = (r.methodInfo m).signature) :
      Repeats r (addMember c name (.ofMethod m)) (.member (.method (r.methodInfo m).signature))
  | field {c : ClassId} {name : String} {ty : Ty} (hTy : ∀ m, ty ≠ .ofMethod m)
      (taken : name ∈ (r.classInfo c).members.names.names) :
      Repeats r (addMember c name ty) (.member (.field name))

end Call

/-- A registry that a new one becomes by calls. -/
inductive Reached : Registry → Prop where
  | initial : Reached initial
  | call {r : Registry} (call : Call) (prior : Reached r) (known : call.IsKnown r) : Reached (call.apply r)

/-- What the tables of one class say of each other. -/
structure OrderlyAt (r : Registry) (c : ClassId) : Prop extends TidyAt r c where
  parent : ∀ p, r.parent c = some p → p.index < r.classes.length
  members : (r.classInfo c).members.names.names.Nodup
  own : ∀ f ∈ (r.classInfo c).fields, r.lookupField c f.1 = some f.2
  known : ∀ ty ∈ (r.classInfo c).members.names.types, r.Knows ty
  destructor : ∀ m, (r.classInfo c).destructor = some m ↔
    m ∈ (r.classInfo c).methods ∧ (r.methodInfo m).kind = .destructor
  vmt : ∀ m ∈ (r.classInfo c).vmt, m.index < r.methods.length

/-- What the tables of a registry say of each other, whatever calls have made it. -/
structure Orderly (r : Registry) : Prop where
  found : r.FoundByName
  classes : ∀ c, r.OrderlyAt c
  methods : ∀ m ∈ r.methods, m.owner.index < r.classes.length ∧
    ∀ ty ∈ m.params.types ++ m.returns.toList ++ m.locals.names.types, r.Knows ty

theorem Knows.mono {ty : Ty} (h : r.Knows ty) (hClasses : r.classes.length ≤ r'.classes.length)
    (hMethods : r.methods.length ≤ r'.methods.length) : r'.Knows ty := by
  cases ty with
  | ofClass c => exact Nat.lt_of_lt_of_le h hClasses
  | ofMethod m => exact Nat.lt_of_lt_of_le h hMethods
  | int | null | untyped | error | address => trivial

namespace OrderlyAt

theorem of_bare {name : String} (h : r.classInfo c = { name }) : r.OrderlyAt c := by
  refine ⟨⟨?_, ?_, ?_, ?_⟩, ?_, ?_, ?_, ?_, ?_, ?_⟩
  all_goals simp [Registry.parent, h, Bindings.names, Bindings.types]

/-- A class that stays as it is stays orderly while other classes and methods are recorded. -/
theorem of_same (h : r.OrderlyAt c) (hClasses : r.classes.length ≤ r'.classes.length)
    (hMethods : r.methods <+: r'.methods) (hSame : r'.classInfo c = r.classInfo c) : r'.OrderlyAt c where
  toTidyAt := h.toTidyAt.of_same hMethods hSame
  parent := by
    rw [Registry.parent, hSame]
    exact fun p hp => Nat.lt_of_lt_of_le (h.parent p hp) hClasses
  members := hSame ▸ h.members
  own := by
    rw [hSame]
    intro f hf
    rw [lookupField, hSame]
    exact h.own f hf
  known := by
    rw [hSame]
    exact fun ty hTy => (h.known ty hTy).mono hClasses hMethods.length_le
  destructor := by
    intro m
    rw [hSame, h.destructor m]
    refine and_congr_right fun hm => ?_
    rw [show r'.methodInfo m = r.methodInfo m from methodInfo_of_prefix hMethods (h.bounded m hm)]
  vmt := by
    rw [hSame]
    exact fun m hm => Nat.lt_of_lt_of_le (h.vmt m hm) hMethods.length_le

theorem subset_members (h : r.OrderlyAt c) :
    (r.classInfo c).fields.names ⊆ (r.classInfo c).members.names.names := by
  intro name hName
  obtain ⟨f, hf, rfl⟩ := mem_map.mp hName
  by_contra hNone
  have hType := h.own f hf
  rw [lookupField, Bindings.type?_eq_none_iff.mpr hNone] at hType
  cases hType

theorem known_field (h : r.OrderlyAt c) {f : String × Ty} (hf : f ∈ (r.classInfo c).fields) :
    r.Knows f.2 := by
  obtain ⟨entry, hEntry, hType⟩ := Option.map_eq_some_iff.mp (h.own f hf)
  exact hType ▸ h.known _ (mem_map_of_mem (mem_of_find?_eq_some hEntry))

end OrderlyAt

namespace Orderly

variable (h : r.Orderly)

include h

/-- A change of one class. -/
theorem update (hNames : r'.classes.map ClassInfo.name = r.classes.map ClassInfo.name)
    (hTable : r'.byName = r.byName) (hMethods : r'.methods = r.methods)
    (hOthers : ∀ c, c ≠ id → r'.classInfo c = r.classInfo c) (hSelf : r'.OrderlyAt id) : r'.Orderly := by
  have hLength : r'.classes.length = r.classes.length := by
    simpa using congrArg List.length hNames
  refine ⟨h.found.of_names hNames hTable, ?_, ?_⟩
  · intro c
    by_cases hc : c = id
    · exact hc ▸ hSelf
    · exact (h.classes c).of_same hLength.ge (hMethods ▸ prefix_rfl) (hOthers c hc)
  · rw [hMethods, hLength]
    intro m hm
    obtain ⟨hOwner, hTypes⟩ := h.methods m hm
    exact ⟨hOwner, fun ty hTy => (hTypes ty hTy).mono hLength.ge (hMethods ▸ Nat.le_refl _)⟩

theorem updateClass {f : ClassInfo → ClassInfo} (hName : ∀ info, (f info).name = info.name)
    (hSelf : (r.updateClass id f).OrderlyAt id) : (r.updateClass id f).Orderly := by
  exact h.update (map_updateClass hName r id) rfl rfl (fun c hc => classInfo_updateClass_of_ne r f hc) hSelf

/-- A new class has no parent and no members. Its name must be free, or its name would find another class. -/
theorem pushClass {name : String} (hNew : r.lookupClass name = none) : (r.pushClass name).Orderly := by
  have hGrows : r.classes.length ≤ (r.pushClass name).classes.length := by simp [Registry.pushClass]
  refine ⟨h.found.pushClass hNew, ?_, ?_⟩
  · intro c
    have hInfo := classInfo_pushClass r name c
    split at hInfo
    · exact .of_bare hInfo
    · exact (h.classes c).of_same hGrows prefix_rfl hInfo
  · intro m hm
    obtain ⟨hOwner, hTypes⟩ := h.methods m hm
    exact ⟨Nat.lt_of_lt_of_le hOwner hGrows, fun ty hTy => (hTypes ty hTy).mono hGrows (Nat.le_refl _)⟩

section

variable (hId : id.index < r.classes.length)
include hId

/-- A change of one class that leaves its declarations alone. -/
theorem rework {f : ClassInfo → ClassInfo}
    (hName : ∀ info, (f info).name = info.name)
    (hTable : ∀ info, (f info).members.methods = info.members.methods)
    (hMethods : ∀ info, (f info).methods = info.methods) (hFields : ∀ info, (f info).fields = info.fields)
    (hDestructor : ∀ info, (f info).destructor = info.destructor)
    (hParent : ∀ p, (f (r.classInfo id)).parent = some p → p.index < r.classes.length)
    (hMembers : (f (r.classInfo id)).members.names.names.Nodup)
    (hOwn : ∀ entry ∈ (r.classInfo id).fields,
      (f (r.classInfo id)).members.names.type? entry.1 = some entry.2)
    (hKnown : ∀ ty ∈ (f (r.classInfo id)).members.names.types, r.Knows ty)
    (hVmt : ∀ m ∈ (f (r.classInfo id)).vmt, m.index < r.methods.length) : (r.updateClass id f).Orderly := by
  have hSelf := classInfo_updateClass_self r f hId
  have hOld := h.classes id
  have hLength := length_classes_updateClass r id f
  refine h.updateClass hName ⟨hOld.toTidyAt.congr prefix_rfl ?_ ?_ ?_, ?_, ?_, ?_, ?_, ?_, ?_⟩
  all_goals simp only [parent, lookupField, hSelf, hTable, hMethods, hFields, hDestructor, hLength]
  · exact hParent
  · exact hMembers
  · exact hOwn
  · exact fun ty hTy => (hKnown ty hTy).mono hLength.ge (Nat.le_refl _)
  · exact hOld.destructor
  · exact hVmt

theorem setParent {p : ClassId} (hp : p.index < r.classes.length) : (r.setParent id p).Orderly := by
  have hOld := h.classes id
  refine h.rework hId (by intro; rfl) (by intro; rfl) (by intro; rfl) (by intro; rfl) (by intro; rfl) ?_
    hOld.members hOld.own hOld.known hOld.vmt
  rintro _ ⟨⟩
  exact hp

/-- Inherited fields have types that are known, since the ancestors declared them with such types. -/
theorem inheritFields : (r.inheritFields id).Orderly := by
  have hOld := h.classes id
  refine h.rework hId (by intro; rfl) (by intro; rfl) (by intro; rfl) (by intro; rfl) (by intro; rfl)
    hOld.parent (Bindings.nodup_names_extend hOld.members) ?_ ?_ hOld.vmt
  · intro f hf
    have hType : (r.classInfo id).members.names.type? f.1 = some f.2 := hOld.own f hf
    rw [Bindings.type?_extend, hType, Option.some_or]
  · intro ty hTy
    obtain ⟨f, hf, rfl⟩ := mem_map.mp hTy
    rcases Bindings.mem_of_mem_extend hf with hf | hf
    · exact hOld.known _ (mem_map_of_mem hf)
    · obtain ⟨a, -, hf⟩ := mem_flatMap.mp hf
      exact (h.classes a).known_field hf

theorem buildVMT : (r.buildVMT id).Orderly := by
  have hOld := h.classes id
  refine h.rework hId (by intro; rfl) (by intro; rfl) (by intro; rfl) (by intro; rfl) (by intro; rfl)
    hOld.parent hOld.members hOld.own hOld.known ?_
  intro m hm
  obtain ⟨a, -, hm, -⟩ := mem_virtualMethods_iff.mp (mem_virtualMethods_of_mem_dispatchTable hm)
  exact (h.classes a).bounded m hm

end

/-- A method is recorded in order if its class and the types of its heading are known. It is a member of no
class yet. -/
theorem declareMethod {owner : ClassId} (name : String) (kind : MethodKind) {params : Bindings}
    {returns : Option Ty} (hOwner : owner.index < r.classes.length)
    (hTypes : ∀ ty ∈ params.types ++ returns.toList, r.Knows ty) :
    (r.declareMethod owner name kind params returns).2.Orderly := by
  have hMethods := (grows_declareMethod owner name kind params returns owner r).methods
  refine ⟨h.found, fun c => (h.classes c).of_same (Nat.le_refl _) hMethods rfl, ?_⟩
  intro m hm
  have hKnown : m.owner.index < r.classes.length ∧
      ∀ ty ∈ m.params.types ++ m.returns.toList ++ m.locals.names.types, r.Knows ty := by
    rcases mem_append.mp hm with hm | hm
    · exact h.methods m hm
    · rw [mem_singleton.mp hm]
      exact ⟨hOwner, by simpa [Bindings.types] using hTypes⟩
  exact ⟨hKnown.1, fun ty hTy => (hKnown.2 ty hTy).mono (Nat.le_refl _) hMethods.length_le⟩

/-- A method that is accepted is listed in its class. Nothing is said about one that is refused, as no registry
results. -/
theorem addMethod {m : MethodId} (hId : id.index < r.classes.length) (hm : m.index < r.methods.length)
    (hAdd : r.addMethod id m = .ok r') : r'.Orderly := by
  obtain ⟨-, hOutline, hMethods, hOthers, hSelf⟩ := addMethod_eq_ok hId hAdd
  have hOld := h.classes id
  have hLength := length_classes_of_outline hOutline
  have hInfo : ∀ k, r'.methodInfo k = r.methodInfo k := fun k => by rw [methodInfo, methodInfo, hMethods]
  refine h.update (names_of_outline hOutline) (congrArg Prod.snd hOutline) hMethods hOthers
    ⟨hOld.toTidyAt.addMethod hId hm hAdd, ?_, ?_, ?_, ?_, ?_, ?_⟩
  all_goals simp only [parent, lookupField, hSelf, ClassInfo.withMethod, hInfo, hMethods, hLength]
  · exact hOld.parent
  · exact hOld.members
  · exact hOld.own
  · exact fun ty hTy => (hOld.known ty hTy).mono hLength.ge (hMethods ▸ Nat.le_refl _)
  · intro k
    rw [mem_append, mem_singleton, or_and_right, ← hOld.destructor k]
    by_cases hKind : (r.methodInfo m).kind = .destructor
    · have hNone : (r.classInfo id).destructor = none := by
        by_contra hSome
        rw [Registry.addMethod, if_pos ⟨hKind, Option.isSome_iff_ne_none.mpr hSome⟩] at hAdd
        cases hAdd
      rw [if_pos hKind, hNone, Option.some.injEq]
      exact ⟨fun hk => .inr ⟨hk.symm, hk ▸ hKind⟩, fun hk => (hk.resolve_left (by rintro ⟨⟩)).1.symm⟩
    · rw [if_neg hKind]
      refine ⟨.inl, fun hk => hk.resolve_right ?_⟩
      rintro ⟨rfl, hKind'⟩
      exact hKind hKind'
  · exact hOld.vmt

/-- A field that is accepted has a type that is known. What the class inherits is not looked at. -/
theorem addField {name : String} {ty : Ty} (hId : id.index < r.classes.length) (hTy : r.Knows ty)
    (hAdd : r.addField id name ty = .ok r') : r'.Orderly := by
  obtain ⟨hNew, hOutline, hMethods, hOthers, hSelf⟩ := addField_eq_ok hId hAdd
  have hOld := h.classes id
  have hLength := length_classes_of_outline hOutline
  have hInfo : ∀ k, r'.methodInfo k = r.methodInfo k := fun k => by rw [methodInfo, methodInfo, hMethods]
  refine h.update (names_of_outline hOutline) (congrArg Prod.snd hOutline) hMethods hOthers
    ⟨hOld.toTidyAt.addField hId hOld.subset_members hAdd, ?_, ?_, ?_, ?_, ?_, ?_⟩
  all_goals simp only [parent, lookupField, hSelf, ClassInfo.withField, hInfo, hMethods, hLength]
  · exact hOld.parent
  · rw [Bindings.names, ← concat_eq_append, map_concat]
    exact hOld.members.concat hNew
  · intro f hf
    rw [Bindings.type?_append]
    rcases mem_append.mp hf with hf | hf
    · rw [show (r.classInfo id).members.names.type? f.1 = some f.2 from hOld.own f hf, Option.some_or]
    · rw [mem_singleton.mp hf, Bindings.type?_eq_none_iff.mpr hNew, Option.none_or,
        Bindings.type?_singleton, if_pos rfl]
  · intro ty' hTy'
    obtain ⟨f, hf, rfl⟩ := mem_map.mp hTy'
    have hKnown : r.Knows f.2 := by
      rcases mem_append.mp hf with hf | hf
      · exact hOld.known _ (mem_map_of_mem hf)
      · rw [mem_singleton.mp hf]
        exact hTy
    exact hKnown.mono hLength.ge (hMethods ▸ Nat.le_refl _)
  · exact hOld.destructor
  · exact hOld.vmt

/-- No call destroys the order, whether it is refused or not. Calls with numbers that were never handed out are
left out. -/
theorem apply (call : Call) (hKnown : call.IsKnown r) : (call.apply r).Orderly := by
  cases call with
  | registerClass name =>
    rw [Call.apply, Call.on, Change.on_registerClass]
    by_cases hTaken : (r.lookupClass name).isSome
    · rw [if_pos hTaken]
      exact h
    · rw [if_neg hTaken]
      exact h.pushClass (Option.not_isSome_iff_eq_none.mp hTaken)
  | setParent c p => exact h.setParent hKnown.1 hKnown.2
  | declareMethod owner name kind params returns => exact h.declareMethod name kind hKnown.1 hKnown.2
  | addMember c name ty =>
    rw [Call.apply, Call.on, Change.on_addMember]
    cases hAdd : r.addMember c name ty with
    | error clash => exact h
    | ok r' =>
      rcases r.addMember_cases c name ty with ⟨m, rfl, hEq⟩ | ⟨-, hEq⟩
      · exact h.addMethod hKnown.1 hKnown.2 (hEq ▸ hAdd)
      · exact h.addField hKnown.1 hKnown.2 (hEq ▸ hAdd)
  | inheritFields c => exact h.inheritFields hKnown
  | buildVMT c => exact h.buildVMT hKnown

theorem signatures_eq (c : ClassId) : (r.classInfo c).members.methods.names =
    (r.classInfo c).methods.map fun m => (r.methodInfo m).signature := by
  simp [(h.classes c).table, Bindings.names, Function.comp_def]

/-- A member that is refused is there already. -/
theorem repeats_addMember {name : String} {ty : Ty} {clash : Redeclaration}
    (hAdd : r.addMember c name ty = .error clash) :
    Call.Repeats r (.addMember c name ty) (.member clash) := by
  rcases r.addMember_cases c name ty with ⟨m, rfl, hEq⟩ | ⟨hTy, hEq⟩
  · rw [hEq, Registry.addMethod] at hAdd
    split at hAdd
    · rename_i hTaken
      cases hAdd
      obtain ⟨k, hk⟩ := Option.isSome_iff_exists.mp hTaken.2
      exact .destructor hTaken.1 ⟨k, ((h.classes c).destructor k).mp hk⟩
    · split at hAdd
      · rename_i hTaken
        cases hAdd
        rw [h.signatures_eq] at hTaken
        exact .method (mem_map.mp hTaken)
      · cases hAdd
  · rw [hEq, Registry.addField] at hAdd
    split at hAdd
    · cases hAdd
      exact .field hTy ‹_›
    · cases hAdd

/-- A refused call repeats what is there. It is refused before its first change, so the registry is left
as it was. -/
theorem refused {call : Call} {refusal : Call.Refusal} (hAnswer : call.answer r = .error refusal) :
    call.Repeats r refusal ∧ call.apply r = r := by
  cases call with
  | setParent | declareMethod | inheritFields | buildVMT => cases hAnswer
  | registerClass name =>
    rw [Call.answer, Call.on, Change.on_registerClass] at hAnswer
    rw [Call.apply, Call.on, Change.on_registerClass]
    by_cases hTaken : (r.lookupClass name).isSome
    · rw [if_pos hTaken] at hAnswer ⊢
      cases hAnswer
      obtain ⟨c, hc⟩ := Option.isSome_iff_exists.mp hTaken
      exact ⟨.className (mem_names_iff.mpr ⟨c, (h.found name c).mp hc⟩), rfl⟩
    · rw [if_neg hTaken] at hAnswer
      cases hAnswer
  | addMember c name ty =>
    rw [Call.answer, Call.on, Change.on_addMember] at hAnswer
    rw [Call.apply, Call.on, Change.on_addMember]
    cases hAdd : r.addMember c name ty with
    | ok r' =>
      rw [hAdd] at hAnswer
      cases hAnswer
    | error clash =>
      rw [hAdd] at hAnswer
      cases hAnswer
      exact ⟨h.repeats_addMember hAdd, rfl⟩

end Orderly

/-- At the start there is the root class alone, with its routines. -/
theorem orderly_initial : initial.Orderly := by
  refine ⟨found_initial, ?_, by decide⟩
  intro c
  by_cases hc : c = object
  · subst hc
    refine ⟨⟨rfl, by decide, by decide, by decide⟩, nofun, by decide, by decide, by decide, ?_, by decide⟩
    have hOnly : ∀ m ∈ (initial.classInfo object).methods, (initial.methodInfo m).kind = .destructor →
        (initial.classInfo object).destructor = some m := by decide
    exact fun m => ⟨by rintro ⟨⟩; decide, fun hm => hOnly m hm.1 hm.2⟩
  · have hOut : initial.classes.length ≤ c.index := by
      refine Nat.pos_of_ne_zero fun hZero => hc ?_
      cases c
      exact congrArg ClassId.mk hZero
    refine @OrderlyAt.of_bare _ _ "" ?_
    rw [classInfo, List.getElem?_eq_none hOut]
    rfl

theorem Reached.orderly (h : Reached r) : r.Orderly := by
  induction h with
  | initial => exact orderly_initial
  | call call _ hKnown ih => exact ih.apply call hKnown

/-- Whatever calls have made a registry, its tables agree with each other, they hold no type whose number was
not handed out, no two classes have one name, classes are found by their names and only by them, and a call
that is refused repeats what is there and leaves the whole registry as it was. That a call is given only
numbers that were handed out is part of `Reached`. -/
theorem reached_registry_is_orderly (h : Reached r) : r.Orderly ∧ (r.classes.map ClassInfo.name).Nodup ∧
      (∀ c, ∀ ty ∈ (r.classInfo c).fields.types ++ (r.classInfo c).members.methods.types, r.Knows ty) ∧
      (∀ name c, r.lookupClass name = some c ↔ c.index < r.classes.length ∧ (r.classInfo c).name = name) ∧
      ∀ call refusal, Call.answer r call = .error refusal → call.Repeats r refusal ∧ call.apply r = r := by
  have hOrderly := h.orderly
  refine ⟨hOrderly, hOrderly.found.nodup, ?_, hOrderly.found, fun _ _ => hOrderly.refused⟩
  intro c ty hTy
  rcases mem_append.mp hTy with hTy | hTy
  · obtain ⟨f, hf, rfl⟩ := mem_map.mp hTy
    exact (hOrderly.classes c).known_field hf
  · rw [(hOrderly.classes c).table, Bindings.types, map_map] at hTy
    obtain ⟨m, hm, rfl⟩ := mem_map.mp hTy
    exact (hOrderly.classes c).bounded m hm

/-- A class that has a copy of an inherited field does not get a field of its own of that name. -/
theorem reached_registry_is_orderly_copied : ∃ r, Reached r ∧ r.Orderly ∧
    r.lookupField ⟨2⟩ "x" = some .int ∧ (Call.addMember ⟨2⟩ "x" (.ofClass ⟨1⟩)).apply r = r := by
  have hReached : Reached ([Call.registerClass "A", .registerClass "B", .setParent ⟨2⟩ ⟨1⟩,
      .addMember ⟨1⟩ "x" .int, .inheritFields ⟨2⟩].foldl Call.apply initial) := by
    rw [foldl_cons, foldl_cons, foldl_cons, foldl_cons, foldl_cons, foldl_nil]
    refine .call _ (.call _ (.call _ (.call _ (.call _ .initial ?_) ?_) ?_) ?_) ?_
    · trivial
    · trivial
    · exact ⟨by decide, by decide⟩
    · exact ⟨by decide, trivial⟩
    · exact show 2 < _ by decide
  obtain ⟨hOrderly, -, -, -, hRefused⟩ := reached_registry_is_orderly hReached
  exact ⟨_, hReached, hOrderly, by decide, (hRefused _ (.member (.field "x")) rfl).2⟩

end TLang.Registry
