import TLang.Proofs.Registry.Interface
import TLang.Proofs.Typing.Rules

/-! The environments in which bodies are typed. Typing a body only adds variables, so whatever was
found to be well typed stays so in every later environment of the same body. -/
namespace TLang

variable {rank : Nat} {storage : Storage} {receiver : Receiver Expr} {kind : MethodKind}
  {select select' : Selection} {c : ClassId} {m : MethodId} {name : String} {ty : Ty}

namespace Bindings

variable {b more : Bindings}

theorem mem_of_type? (h : b.type? name = some ty) : (name, ty) ∈ b := by
  obtain ⟨⟨found, ty'⟩, hFound, rfl⟩ := Option.map_eq_some_iff.mp h
  have hName : found = name := by simpa using List.find?_some hFound
  exact hName ▸ List.mem_of_find?_eq_some hFound

theorem mem_types_of_type? (h : b.type? name = some ty) : ty ∈ b.types :=
  List.mem_map_of_mem (mem_of_type? h)

/-- The rank and the type of a name belong to the same declaration. -/
theorem getElem?_of_position? (hRank : b.position? name = some rank) (hType : b.type? name = some ty) :
    b[rank]? = some (name, ty) := by
  induction b generalizing rank with
  | nil => cases hType
  | cons entry b ih =>
    by_cases hName : entry.1 = name
    · simp only [position?, List.findIdx?_cons, hName, beq_self_eq_true, if_true,
        Option.some.injEq] at hRank
      simp only [type?, List.find?_cons, hName, beq_self_eq_true, Option.map_some,
        Option.some.injEq] at hType
      subst hRank
      rw [List.getElem?_cons_zero, ← hName, ← hType]
    · simp only [position?, List.findIdx?_cons, beq_eq_false_iff_ne.mpr hName, Bool.false_eq_true,
        if_false, Option.map_eq_some_iff] at hRank
      simp only [type?, List.find?_cons, beq_eq_false_iff_ne.mpr hName] at hType
      obtain ⟨rank, hRank, rfl⟩ := hRank
      rw [List.getElem?_cons_succ]
      exact ih hRank hType

/-- In a table without repetitions a name has the rank at which it stands. -/
theorem position?_of_getElem? (hNodup : b.names.Nodup) (h : b[rank]? = some (name, ty)) :
    b.position? name = some rank := by
  obtain ⟨hLt, hEntry⟩ := List.getElem?_eq_some_iff.mp h
  rw [position?, List.findIdx?_eq_some_iff_getElem]
  refine ⟨hLt, by simp [hEntry], ?_⟩
  intro before hBefore hName
  have hSame : b.names[before]? = b.names[rank]? := by
    rw [names, List.getElem?_map, List.getElem?_map, h, List.getElem?_eq_getElem (hBefore.trans hLt)]
    simpa using hName
  have hLength : before < b.names.length := by
    rw [names, List.length_map]
    exact hBefore.trans hLt
  exact Nat.ne_of_lt hBefore ((List.getElem?_inj hLength hNodup).mp hSame)

theorem type?_of_prefix (hPrefix : b <+: more) (h : b.type? name = some ty) :
    more.type? name = some ty := by
  obtain ⟨added, rfl⟩ := hPrefix
  rw [type?_append, h, Option.some_or]

end Bindings

/-- A position inside a body: that of the main block, or that of a method of some class below the
root. -/
def Position.InBody (r : Registry) (p : Position) : Prop :=
  p = { inMain := true } ∨ ∃ c m, p = { inClass := some c, inMethod := some m } ∧
    c ≠ Registry.object ∧ m ∈ (r.classInfo c).methods

namespace Env

variable {names : String → Prop} {env Γ : Env}

/-- The classes are settled, and all variables have types that can be stored. -/
structure WellFormed (names : String → Prop) (env : Env) : Prop where
  settled : env.types.Settled names
  locals : ∀ m, ∀ ty ∈ (env.types.methodInfo m).locals.names.types, env.types.IsStored ty
  globals : ∀ ty ∈ env.globals.names.types, env.types.IsStored ty

/-- Every environment in which a part of a body is typed. -/
structure Sound (names : String → Prop) (env : Env) : Prop extends env.WellFormed names where
  inBody : env.position.InBody env.types

namespace WellFormed

theorem placed (h : env.WellFormed names) (p : Position) : (env.placed p).WellFormed names :=
  ⟨h.settled, h.locals, h.globals⟩

theorem placed_main (h : env.WellFormed names) : (env.placed { inMain := true }).Sound names :=
  ⟨h.placed _, .inl rfl⟩

theorem placed_method (h : env.WellFormed names) (hBelow : c ≠ Registry.object)
    (hm : m ∈ (env.types.classInfo c).methods) :
    (env.placed { inClass := some c, inMethod := some m }).Sound names :=
  ⟨h.placed _, .inr ⟨c, m, rfl, hBelow, hm⟩⟩

end WellFormed

/-- The variables of the first environment are those of the second, with perhaps more behind
them. -/
structure Below (env Γ : Env) : Prop where
  interface : Registry.SameInterface env.types Γ.types
  locals : ∀ m, (env.types.methodInfo m).locals.names <+: (Γ.types.methodInfo m).locals.names
  globals : env.globals.names <+: Γ.globals.names

namespace Below

theorem refl (env : Env) : env.Below env :=
  ⟨.refl _, fun _ => List.prefix_rfl, List.prefix_rfl⟩

theorem trans {Δ : Env} (h : env.Below Γ) (h' : Γ.Below Δ) : env.Below Δ :=
  ⟨h.interface.trans h'.interface, fun m => (h.locals m).trans (h'.locals m),
    h.globals.trans h'.globals⟩

section SameBody

variable (h : env.Below Γ) (hPosition : Γ.position = env.position)

include h hPosition

theorem owner? : Γ.owner? = env.owner? := by
  simp only [Env.owner?, hPosition, h.interface.owner]

theorem declares (hDeclares : env.Declares name storage ty) : Γ.Declares name storage ty := by
  cases hDeclares with
  | mainVar hScope hType =>
    exact .mainVar (hPosition ▸ hScope) (Bindings.type?_of_prefix h.globals hType)
  | @localVar m slot _ hScope hType =>
    refine .localVar (hPosition ▸ hScope) ?_
    obtain ⟨added, hAdded⟩ := h.locals m
    rw [← hAdded, List.getElem?_append_left (List.getElem?_eq_some_iff.mp hType).1, hType]
  | @param m index _ hScope hType =>
    refine .param (hPosition ▸ hScope) ?_
    rw [h.interface.params, hType]
  | @field c offset _ hOwner hType hOffset =>
    refine .field (h.owner? hPosition ▸ hOwner) ?_ ?_
    · rw [h.interface.fieldType, hType]
    · rw [h.interface.fieldOffset, hOffset]

theorem looksIn (hLooksIn : env.LooksIn receiver c) : Γ.LooksIn receiver c := by
  cases receiver with
  | implicit => exact (h.owner? hPosition).trans hLooksIn
  | super =>
    obtain ⟨owner, hOwner, hParent⟩ := hLooksIn
    exact ⟨owner, (h.owner? hPosition).trans hOwner,
      (Registry.parent_of_outline h.interface.outline owner).trans hParent⟩
  | object e => exact hLooksIn

theorem delegates {delegate : Delegate} (hDelegates : env.Delegates delegate c) : Γ.Delegates delegate c := by
  cases delegate with
  | this => exact (h.owner? hPosition).trans hDelegates
  | super =>
    obtain ⟨owner, hOwner, hParent⟩ := hDelegates
    exact ⟨owner, (h.owner? hPosition).trans hOwner,
      (Registry.parent_of_outline h.interface.outline owner).trans hParent⟩

omit hPosition in
theorem dispatches {slot : Option Nat} (hSlot : env.Dispatches receiver c m slot) :
    Γ.Dispatches receiver c m slot := by
  cases receiver with
  | super => exact hSlot
  | implicit | object _ =>
    obtain ⟨s, hs, hTable⟩ := hSlot
    exact ⟨s, hs, by rw [h.interface.signature, h.interface.vmtSlot, hTable]⟩

omit hPosition in
theorem calledBy (hCalled : env.CalledBy names c kind name) : Γ.CalledBy names c kind name := by
  cases kind with
  | method => exact hCalled
  | constructor => exact hCalled.trans (by rw [h.interface.classInfo])
  | destructor => exact hCalled

omit hPosition in
theorem selects {args : List Expr} (hSelects : env.Selects names c kind name args m) :
    Γ.Selects names c kind name args m := by
  obtain ⟨hCalled, exact, hResolve, hArgs⟩ := hSelects
  refine ⟨h.calledBy hCalled, exact, by rw [h.interface.resolveMethod, hResolve], ?_⟩
  simp only [Env.convertArgs, h.interface.params]
  exact hArgs

omit h in
/-- The two environments agree on whether there is a method around the body, and then on what other
bodies see of it. -/
theorem method_cases : (env.method? = none ∧ Γ.method? = none) ∨
    ∃ m, env.method? = some (env.types.methodInfo m) ∧ Γ.method? = some (Γ.types.methodInfo m) := by
  simp only [Env.method?, hPosition]
  cases env.position.method? with
  | none => exact .inl ⟨rfl, rfl⟩
  | some m => exact .inr ⟨m, rfl, rfl⟩

theorem exitLabel : Γ.exitLabel = env.exitLabel := by
  rcases method_cases hPosition with ⟨hNone, hNone'⟩ | ⟨m, hSome, hSome'⟩
  · rw [Env.exitLabel, hNone', Env.exitLabel, hNone]
  · rw [Env.exitLabel, hSome', Env.exitLabel, hSome]
    exact h.interface.congr MethodInfo.exitLabel (fun _ => rfl) m

end SameBody

end Below

/-- The second environment is a later one of the same body, and what calls are resolved to in the first one
they may be resolved to in the second. Only calls whose arguments are typed are looked at. -/
structure Later (env Γ : Env) (select select' : Selection) : Prop where
  below : env.Below Γ
  position : Γ.position = env.position
  calls : ∀ {c kind name args m}, (∀ a ∈ args, Denotes env select a (.value a.ty)) →
    select c kind name args m → select' c kind name args m

namespace Later

variable (h : env.Later Γ select select')

include h

/-- What a node denotes, it denotes in every later environment of its body, however liberal calls are resolved
there. -/
theorem denotes {e : Expr} {d : Meaning} (hDenotes : Denotes env select e d) : Denotes Γ select' e d := by
  obtain ⟨h, hPosition, hSelect⟩ := h
  have hOwner := h.owner? hPosition
  induction hDenotes with
  | int line value => exact .int line value
  | null line => exact .null line
  | this line hThis => exact .this line (hOwner.trans hThis)
  | var line hDeclares => exact .var line (h.declares hPosition hDeclares)
  | field line hObject hType hOffset ih =>
    exact .field line ih (by rw [h.interface.fieldType, hType])
      (by rw [h.interface.fieldOffset, hOffset])
  | read line hAddress ih => exact .read line ih
  | assign line hTarget hValue ihTarget ihValue => exact .assign line ihTarget ihValue
  | arithmetic line hOp hLeft hRight ihLeft ihRight => exact .arithmetic line hOp ihLeft ihRight
  | equality line hLeft hRight hComparable ihLeft ihRight =>
    exact .equality line ihLeft ihRight hComparable
  | unary line op hOperand ih => exact .unary line op ih
  | call line hReceiver hArgs hLooksIn hCall hReturns hSlot ihReceiver ihArgs =>
    exact .call line ihReceiver ihArgs (h.looksIn hPosition hLooksIn) (hSelect hArgs hCall)
      (by rw [h.interface.returns, hReturns]) (h.dispatches hSlot)
  | new line hArgs hClass hNew ihArgs =>
    exact .new line ihArgs (by rw [Registry.lookupClass_of_outline h.interface.outline, hClass])
      (hSelect hArgs hNew)
  | cast line hOperand hTy hClass ih =>
    exact .cast line ih hTy
      (by rw [Registry.lookupClass_of_outline h.interface.outline, hClass])
  | widen line hOperand hAssignable hProper ih =>
    exact .widen line ih (by rw [h.interface.isAssignable, hAssignable]) hProper

/-- What a body returns, it returns in every later environment. -/
theorem returns {value : Option Expr} (hReturns : env.Returns select value) : Γ.Returns select' value := by
  rcases Below.method_cases h.position with ⟨hNone, hNone'⟩ | ⟨m, hSome, hSome'⟩
  · simp only [Env.Returns, hNone, hNone'] at hReturns ⊢
    exact fun e he => h.denotes (hReturns e he)
  · simp only [Env.Returns, hSome, hSome', Env.ReturnsFrom, h.below.interface.kind,
      h.below.interface.returns] at hReturns ⊢
    cases hKind : (env.types.methodInfo m).kind with
    | method =>
      rw [hKind] at hReturns
      obtain ⟨e, ty, hValue, hTy, hDenotes⟩ := hReturns
      exact ⟨e, ty, hValue, hTy, h.denotes hDenotes⟩
    | constructor | destructor =>
      rw [hKind] at hReturns
      exact hReturns

omit h

mutual

/-- What is well typed is so in every later environment of its body. -/
theorem typed (h : env.Later Γ select select') {inLoop : Bool} : (s : Stmt) → s.Typed env select inLoop →
    s.Typed Γ select' inLoop
  | .expr _ _, ⟨ty, hDenotes⟩ => ⟨ty, h.denotes hDenotes⟩
  | .declare _ _ _, _ | .empty _, _ => trivial
  | .print _ _, hDenotes => h.denotes hDenotes
  | .block _ body, hBody => allTyped h body hBody
  | .branch _ _ thenBranch elseBranch, ⟨hCond, hThen, hElse⟩ =>
    ⟨h.denotes hCond, typed h thenBranch hThen, elseTyped h elseBranch hElse⟩
  | .loop _ _ body, ⟨hCond, hBody⟩ =>
    ⟨h.denotes hCond, typed h body hBody⟩
  | .ret _ _ _, ⟨hReturns, hExit⟩ =>
    ⟨h.returns hReturns, by rw [h.below.exitLabel h.position, hExit]⟩
  | .breakLoop _, hLoop | .continueLoop _, hLoop => hLoop
  | .delete _ _, ⟨c, hDenotes⟩ => ⟨c, h.denotes hDenotes⟩
  | .construct _ _ _ _, ⟨c, m, hDelegates, hConstructor, hArgs, hCall⟩ =>
    ⟨c, m, h.below.delegates h.position hDelegates, hConstructor,
      fun a ha => h.denotes (hArgs a ha),
      by rw [h.below.interface.classInfo]; exact h.calls hArgs hCall⟩

theorem elseTyped (h : env.Later Γ select select') {inLoop : Bool} : (s : Option Stmt) →
    Stmt.ElseTyped env select inLoop s → Stmt.ElseTyped Γ select' inLoop s
  | none, _ => trivial
  | some s, hs => typed h s hs

theorem allTyped (h : env.Later Γ select select') {inLoop : Bool} : (body : List Stmt) →
    Stmt.AllTyped env select inLoop body → Stmt.AllTyped Γ select' inLoop body
  | [], _ => trivial
  | s :: rest, ⟨hs, hRest⟩ =>
    ⟨typed h s hs, allTyped h rest hRest⟩

end

end Later

namespace Sound

open Registry

variable (h : env.Sound names)
include h

/-- Inside the body of a method. -/
theorem of_method (hm : env.position.method? = some m) :
    ∃ c, m ∈ (env.types.classInfo c).methods ∧ env.owner? = some c ∧
      env.position.scope = .method m ∧ env.types.RoutineOf c (env.types.methodInfo m) := by
  rcases h.inBody with hMain | ⟨c, m', hPosition, -, hm'⟩
  · rw [hMain] at hm
    cases hm
  · rw [hPosition] at hm
    cases hm
    have hRoutine := (h.settled.coherent c).routine m hm'
    refine ⟨c, hm', ?_, ?_, hRoutine⟩
    · rw [Env.owner?, hPosition]
      exact congrArg some hRoutine.owner
    · rw [hPosition]
      rfl

/-- Inside the main block. -/
theorem of_main (hm : env.position.method? = none) : env.position = { inMain := true } := by
  rcases h.inBody with hMain | ⟨c, m', hPosition, -, -⟩
  · exact hMain
  · rw [hPosition] at hm
    cases hm

/-- The two kinds of body, told apart by whether there is a method around them. -/
theorem method_cases : (env.method? = none ∧ env.position = { inMain := true }) ∨
      ∃ c m, env.method? = some (env.types.methodInfo m) ∧ env.position.method? = some m ∧
        m ∈ (env.types.classInfo c).methods ∧ env.owner? = some c ∧
        env.position.scope = .method m ∧ env.types.RoutineOf c (env.types.methodInfo m) := by
  cases hMethod : env.position.method? with
  | none => exact .inl ⟨by rw [Env.method?, hMethod]; rfl, h.of_main hMethod⟩
  | some m =>
    obtain ⟨c, hMem, hOwner, hScope, hRoutine⟩ := h.of_method hMethod
    exact .inr ⟨c, m, by rw [Env.method?, hMethod]; rfl, rfl, hMem, hOwner, hScope, hRoutine⟩

theorem owner_registered (hOwner : env.owner? = some c) : c.index < env.types.classes.length := by
  obtain ⟨m, hm, -⟩ := Option.map_eq_some_iff.mp hOwner
  obtain ⟨c', hMem, hOwner', -⟩ := h.of_method hm
  rw [hOwner] at hOwner'
  cases hOwner'
  exact registered_of_mem hMem

/-- The class around a method has a parent. -/
theorem owner_parent (hOwner : env.owner? = some c) : ∃ p, env.types.parent c = some p := by
  obtain ⟨m, hm, hm'⟩ := Option.map_eq_some_iff.mp hOwner
  rcases h.inBody with hMain | ⟨c', m', hPosition, hBelow, hMem⟩
  · rw [hMain] at hm
    cases hm
  · rw [hPosition] at hm
    cases hm
    rw [((h.settled.coherent c').routine m hMem).owner] at hm'
    subst hm'
    exact h.settled.lineal.exists_parent _ (registered_of_mem hMem) hBelow

/-- A field of a registered class has a type that can be stored. -/
theorem isStored_field (hType : env.types.fieldType c name = some ty) : env.types.IsStored ty := by
  obtain ⟨a, -, hField⟩ := List.exists_of_findSome?_eq_some hType
  exact (h.settled.coherent a).fields _ (Bindings.mem_of_type? hField)

/-- A variable that is found was declared, with a type that can be stored. -/
theorem resolveVariable (hFound : env.resolveVariable name = some (ty, storage)) :
    env.Declares name storage ty ∧ env.types.IsStored ty := by
  rcases h.method_cases with ⟨hNone, hPosition⟩ | ⟨c, m, hSome, -, hMem, hOwner, hScope, hRoutine⟩
  · have hScope : env.position.scope = .program := by rw [hPosition]; rfl
    simp only [Env.resolveVariable, Env.scopeTable, hScope, hNone] at hFound
    cases hType : env.globals.names.type? name with
    | none => simp [hType] at hFound
    | some ty' =>
      rw [hType] at hFound
      cases hFound
      exact ⟨.mainVar hScope hType, h.globals _ (Bindings.mem_types_of_type? hType)⟩
  · simp only [Env.resolveVariable, Env.scopeTable, hScope, hSome] at hFound
    cases hLocal : (env.types.methodInfo m).locals.names.type? name with
    | some ty' =>
      simp only [hLocal, Option.map_eq_some_iff, Prod.mk.injEq] at hFound
      obtain ⟨slot, hSlot, rfl, rfl⟩ := hFound
      exact ⟨.localVar hScope (Bindings.getElem?_of_position? hSlot hLocal),
        h.locals m _ (Bindings.mem_types_of_type? hLocal)⟩
    | none =>
      simp only [hLocal, Option.bind_eq_bind, Option.bind_some, Option.orElse_eq_orElse,
        Option.orElse_eq_or, Option.or_eq_some_iff] at hFound
      rcases hFound with hParam | ⟨-, hField⟩
      · simp only [MethodInfo.paramVariable, Option.bind_eq_bind, Option.bind_eq_some_iff,
          Option.pure_def, Option.some.injEq, Prod.mk.injEq] at hParam
        obtain ⟨index, hIndex, ty', hType, rfl, rfl⟩ := hParam
        exact ⟨.param hScope (Bindings.getElem?_of_position? hIndex hType),
          hRoutine.params _ (Bindings.mem_types_of_type? hType)⟩
      · simp only [Env.fieldVariable, Env.enclosingTable, hScope, hRoutine.owner,
          Option.bind_eq_bind, Option.bind_some, Option.bind_eq_some_iff, Option.pure_def,
          Option.some.injEq, Prod.mk.injEq] at hField
        obtain ⟨ty', hType, offset, hOffset, rfl, rfl⟩ := hField
        have hFieldType : env.types.fieldType c name = some ty' :=
          (h.settled.lookups c (registered_of_mem hMem) name).symm.trans hType
        exact ⟨.field hOwner hFieldType hOffset, h.isStored_field hFieldType⟩

end Sound
end Env
end TLang
