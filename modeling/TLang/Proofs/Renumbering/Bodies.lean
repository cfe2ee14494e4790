import TLang.Proofs.Renumbering.Registry
import TLang.Proofs.Scopes

/-! Typing bodies under other numbers. Two environments that look the same from inside a body, up to
the numbers of classes and methods, give the same diagnostics and the same tree up to these numbers.
The variables of other bodies are not looked at, and neither are those of the main block from inside a
class. -/
namespace TLang

open Checked Analysis

variable {ρ : Renumbering} {env env' : Env}

/-- From inside a body, the second environment is the first one under other numbers. -/
structure Env.Mirrors (ρ : Renumbering) (env env' : Env) : Prop where
  types : Registry.Renumbered ρ env.types env'.types
  position : env'.position = env.position.renumber ρ
  scope : env'.scopeTable = env.scopeTable.renumber ρ
  keeps : env.KeepsScope
  keeps' : env'.KeepsScope

/-- Only what is read from a cell can be assigned to. -/
theorem Expr.assignTarget_of_ne {target : Expr} (h : ∀ mark address, target ≠ .deref mark address)
    (line : Nat) : target.assignTarget line = if target.ty = .error then pure (target, .error)
      else do
        Checked.report line .notAssignable
        return (target, .error) := by
  cases target with
  | deref mark address => exact absurd rfl (h mark address)
  | _ => rfl

/-- The assigned cell and the type of what it holds, under other numbers. -/
theorem Expr.assignTarget_renumber (ρ : Renumbering) (line : Nat) (target : Expr) :
    (target.renumber ρ).assignTarget line =
      (fun cell => (cell.1.renumber ρ, cell.2.renumber ρ)) <$> target.assignTarget line := by
  by_cases hDeref : ∃ mark address, target = .deref mark address
  · obtain ⟨mark, address, rfl⟩ := hDeref
    rfl
  · have hNe : ∀ mark address, target ≠ .deref mark address :=
      fun mark address hEq => hDeref ⟨mark, address, hEq⟩
    have hNe' : ∀ mark address, target.renumber ρ ≠ .deref mark address := by
      intro mark address
      cases target with
      | deref mark address => exact absurd rfl (hNe mark address)
      | _ => simp [renumber]
    simp only [assignTarget_of_ne hNe, assignTarget_of_ne hNe', ty_renumber, Ty.renumber_eq_error]
    split <;> rfl

namespace Env.Mirrors

variable (h : env.Mirrors ρ env')

include h

/-- The two environments are in corresponding methods, or both in none. -/
theorem method?_cases : env.method? = none ∧ env'.method? = none ∨
    ∃ m, env.position.method? = some m ∧ env.method? = some (env.types.methodInfo m) ∧
      env'.position.method? = some (ρ.method m) ∧
      env'.method? = some (env'.types.methodInfo (ρ.method m)) := by
  rw [Env.method?, Env.method?, h.position, Position.method?_renumber]
  cases env.position.method? with
  | none => exact .inl ⟨rfl, rfl⟩
  | some m => exact .inr ⟨m, rfl, rfl, rfl, rfl⟩

theorem scope_names : env'.scopeTable.names = env.scopeTable.names.renumber ρ :=
  congrArg SymbolTable.names h.scope

theorem describeCall (name : String) (args : List Expr) :
    env'.describeCall name (args.map (Expr.renumber ρ)) = env.describeCall name args := by
  simp only [Env.describeCall, List.map_map, Function.comp_def, Expr.ty_renumber, h.types.typeName]

theorem enclosingTable : env'.enclosingTable = env.enclosingTable.map (SymbolTable.renumber ρ) := by
  rw [Env.enclosingTable, Env.enclosingTable, h.position, Position.scope_renumber]
  cases env.position.scope with
  | method m =>
    simp only [ScopeKind.renumber, Option.map_some, h.types.owner, h.types.classInfo]
    rfl
  | cls _ | program => rfl

omit h in
theorem paramVariable {m : MethodId} (h : Registry.Renumbered ρ env.types env'.types)
    (name : String) :
    (env'.types.methodInfo (ρ.method m)).paramVariable name =
      ((env.types.methodInfo m).paramVariable name).map (Prod.map (Ty.renumber ρ) id) := by
  simp only [MethodInfo.paramVariable, h.params, Bindings.position?_renumber, Bindings.type?_renumber]
  cases (env.types.methodInfo m).params.position? name with
  | none => rfl
  | some index => cases (env.types.methodInfo m).params.type? name <;> rfl

/-- A field is found in the class around the method, at the same offset. Where there is no method around, no
field is found on either side. -/
theorem fieldVariable (m : MethodId) (name : String) :
    env'.fieldVariable (env'.types.methodInfo (ρ.method m)) name =
      (env.fieldVariable (env.types.methodInfo m) name).map (Prod.map (Ty.renumber ρ) id) := by
  simp only [Env.fieldVariable, h.enclosingTable, h.types.owner, h.types.fieldOffset]
  cases env.enclosingTable with
  | none => rfl
  | some table =>
    have hType : (table.renumber ρ).names.type? name =
        (table.names.type? name).map (Ty.renumber ρ) := Bindings.type?_renumber ρ _ name
    simp only [Option.map_some, Option.bind_eq_bind, Option.bind_some, hType]
    cases table.names.type? name with
    | none => rfl
    | some ty => cases env.types.fieldOffset (env.types.methodInfo m).owner name <;> rfl

/-- A name is kept in the same place. -/
theorem resolveVariable (name : String) : env'.resolveVariable name =
      (env.resolveVariable name).map (Prod.map (Ty.renumber ρ) id) := by
  simp only [Env.resolveVariable, h.scope_names, Bindings.type?_renumber, Bindings.position?_renumber,
    h.position, Position.scope_renumber]
  cases env.scopeTable.names.type? name with
  | some ty =>
    cases env.position.scope with
    | method m =>
      simp only [Option.map_some, ScopeKind.renumber]
      cases env.scopeTable.names.position? name <;> rfl
    | cls c =>
      simp only [Option.map_some, ScopeKind.renumber, h.types.fieldOffset]
      cases env.types.fieldOffset c name <;> rfl
    | program => rfl
  | none =>
    rcases h.method?_cases with ⟨hNone, hNone'⟩ | ⟨m, -, hSome, -, hSome'⟩
    · simp only [Option.map_none, hNone, hNone', Option.bind_eq_bind, Option.bind_none]
    · simp only [Option.map_none, hSome, hSome', Option.bind_eq_bind, Option.bind_some,
        paramVariable h.types, h.fieldVariable]
      cases (env.types.methodInfo m).paramVariable name <;> rfl

variable (line : Nat)

theorem analyzeThis : env'.analyzeThis line = Expr.renumber ρ <$> env.analyzeThis line := by
  rcases h.method?_cases with ⟨hNone, hNone'⟩ | ⟨m, -, hSome, -, hSome'⟩
  · simp only [Env.analyzeThis, hNone, hNone']
    rfl
  · simp only [Env.analyzeThis, hSome, hSome', h.types.owner]
    rfl

theorem analyzeVar (name : String) :
    env'.analyzeVar line name = Expr.renumber ρ <$> env.analyzeVar line name := by
  simp only [Env.analyzeVar, h.resolveVariable]
  rcases env.resolveVariable name with _ | ⟨ty, storage⟩ <;> rfl

/-- Comparisons are typed alike. Classes are compared by who extends whom, which renumbering keeps. -/
theorem analyzeEquality (left right : Expr) :
    env'.analyzeEquality line (left.renumber ρ) (right.renumber ρ) =
      Expr.renumber ρ <$> env.analyzeEquality line left right := by
  simp only [Env.analyzeEquality, Expr.ty_renumber, h.types.typeName]
  cases left.ty with
  | ofClass a =>
    cases right.ty with
    | ofClass b =>
      simp only [Ty.renumber, h.types.outline.related]
      cases env.types.related a b with
      | none => rfl
      | some ancestor =>
        have hEq : ∀ c, ρ.cls c = ρ.cls ancestor ↔ c = ancestor :=
          fun c => ⟨h.types.faithful.cls, congrArg ρ.cls⟩
        simp only [Option.map_some, ne_eq, hEq]
        split
        · simp [Expr.renumber, Mark.renumber, Ty.renumber]
        · split <;> simp [Expr.renumber, Mark.renumber, Ty.renumber]
    | int | null | untyped | error | address | ofMethod _ => rfl
  | int | null | untyped | error | address | ofMethod _ => cases right.ty <;> rfl

theorem analyzeArithmetic (op : BinaryOp) (left right : Expr) :
    env'.analyzeArithmetic line op (left.renumber ρ) (right.renumber ρ) =
      Expr.renumber ρ <$> env.analyzeArithmetic line op left right := by
  simp only [Env.analyzeArithmetic, Expr.ty_renumber, Ty.renumber_eq_error, Ty.renumber_eq_int,
    h.types.typeName]
  split
  · rfl
  · split <;> rfl

theorem analyzeBinary (op : BinaryOp) (left right : Expr) :
    env'.analyzeBinary line op (left.renumber ρ) (right.renumber ρ) =
      Expr.renumber ρ <$> env.analyzeBinary line op left right := by
  cases op with
  | eq => exact h.analyzeEquality line left right
  | add | sub | mul | div | lt | gt => exact h.analyzeArithmetic line _ left right

/-- Operands that are no integers are reported with the names of their types, and these are the same under new
numbers. -/
theorem analyzeUnary (op : UnaryOp) (operand : Expr) : env'.analyzeUnary line op (operand.renumber ρ) =
      Expr.renumber ρ <$> env.analyzeUnary line op operand := by
  simp only [Env.analyzeUnary, Expr.ty_renumber]
  cases operand.ty with
  | ofClass c =>
    simp only [Ty.renumber, h.types.typeName_ofClass]
    rfl
  | ofMethod m =>
    simp only [Ty.renumber, h.types.typeName_ofMethod]
    rfl
  | int | null | untyped | error | address => rfl

/-- What is stored is converted in the same cases, and the same assignments are refused, whatever the numbers of
classes are. -/
theorem assignValue (ty : Ty) (value : Expr) :
    env'.assignValue line (ty.renumber ρ) (value.renumber ρ) =
      (fun stored => (stored.1.renumber ρ, stored.2.renumber ρ)) <$>
        env.assignValue line ty value := by
  simp only [Env.assignValue, Expr.ty_renumber, h.types.typeName, Ty.renumber_eq_error,
    Ty.renumber_eq_null, Ty.renumber_eq_int, Ty.renumber_inj h.types.faithful,
    h.types.outline.isAssignable]
  split
  · rfl
  split
  · rfl
  split
  · rfl
  split
  · rfl
  split
  · simp
  · cases value.ty with
    | ofClass source =>
      cases ty with
      | ofClass target =>
        simp only [Ty.renumber, h.types.outline.related, Option.isSome_map]
        split <;> rfl
      | int | null | untyped | error | address | ofMethod _ => rfl
    | int | null | untyped | error | address | ofMethod _ => rfl

theorem analyzeAssign (target value : Expr) :
    env'.analyzeAssign line (target.renumber ρ) (value.renumber ρ) =
      Expr.renumber ρ <$> env.analyzeAssign line target value := by
  simp only [Env.analyzeAssign, Expr.assignTarget_renumber, bind_map_left, map_bind, h.assignValue]
  rfl

theorem analyzeField (object : Expr) (name : String) : env'.analyzeField line (object.renumber ρ) name =
      Expr.renumber ρ <$> env.analyzeField line object name := by
  simp only [Env.analyzeField, Expr.ty_renumber, h.types.typeName]
  cases object.ty with
  | ofClass c =>
    simp only [Ty.renumber, h.types.lookupField, h.types.fieldOffset]
    cases env.types.lookupField c name with
    | none => rfl
    | some ty => cases env.types.fieldOffset c name <;> rfl
  | ofMethod m =>
    simp only [Ty.renumber, h.types.typeName_ofMethod]
    rfl
  | int | null | untyped | error | address => rfl

theorem convertArgs (resolution : Registry.Resolution) (args : List Expr) :
    env'.convertArgs (resolution.renumber ρ) (args.map (Expr.renumber ρ)) =
      (env.convertArgs resolution args).map (Expr.renumber ρ) := by
  simp only [Env.convertArgs, Registry.Resolution.renumber, h.types.params,
    Bindings.types_renumber, List.zip_map]
  split
  · rfl
  · rw [List.map_map, List.map_map]
    apply List.map_congr_left
    rintro ⟨arg, ty⟩ -
    simp only [Function.comp_apply, Prod.map_apply, Expr.ty_renumber, Ty.renumber_inj h.types.faithful]
    split <;> simp

/-- Calls are looked up in corresponding classes. Outside a class both sides report that there is none, in the
same words. -/
theorem receiverClass (name : String) (receiver : Receiver Expr) :
    env'.receiverClass line name (Expr.renumberReceiver ρ receiver) =
      Option.map ρ.cls <$> env.receiverClass line name receiver := by
  cases receiver with
  | implicit =>
    rcases h.method?_cases with ⟨hNone, hNone'⟩ | ⟨m, -, hSome, -, hSome'⟩
    · simp only [Expr.renumberReceiver, Env.receiverClass, hNone, hNone']
      rfl
    · simp only [Expr.renumberReceiver, Env.receiverClass, hSome, hSome', h.types.owner]
      rfl
  | super =>
    rcases h.method?_cases with ⟨hNone, hNone'⟩ | ⟨m, -, hSome, -, hSome'⟩
    · simp only [Expr.renumberReceiver, Env.receiverClass, hNone, hNone']
      rfl
    · simp only [Expr.renumberReceiver, Env.receiverClass, hSome, hSome', Option.bind_some,
        h.types.owner, h.types.outline.parent]
      cases env.types.parent (env.types.methodInfo m).owner <;> rfl
  | object e =>
    simp only [Expr.renumberReceiver, Env.receiverClass, Expr.ty_renumber]
    cases e.ty with
    | ofClass c => rfl
    | ofMethod m =>
      simp only [Ty.renumber, h.types.typeName_ofMethod]
      rfl
    | int | null | untyped | error | address => rfl

/-- The slot of a table at which a method is called does not change, since tables keep their order. -/
theorem callSlot (receiver : Receiver Expr) (c : ClassId) (m : MethodId) :
    env'.callSlot (Expr.renumberReceiver ρ receiver) (ρ.cls c)
        (env'.types.methodInfo (ρ.method m)) =
      env.callSlot receiver c (env.types.methodInfo m) := by
  cases receiver with
  | super => rfl
  | implicit | object _ =>
    simp only [Expr.renumberReceiver, Env.callSlot, h.types.routineSignature, h.types.vmtSlot]

omit h in
theorem any_error (args : List Expr) :
    ((args.map (Expr.renumber ρ)).any fun e => decide (e.ty = .error)) =
      args.any fun e => decide (e.ty = .error) := by
  simp only [List.any_map, Function.comp_def, Expr.ty_renumber, Ty.renumber_eq_error]

omit h in
theorem map_ty (args : List Expr) :
    (args.map (Expr.renumber ρ)).map Expr.ty = (args.map Expr.ty).map (Ty.renumber ρ) := by
  simp only [List.map_map, Function.comp_def, Expr.ty_renumber]

/-- Overloads are resolved to corresponding methods. Slots are the same, so code that calls through a table is
the same too. -/
theorem analyzeCall (receiver : Receiver Expr) (name : String) (args : List Expr) :
    env'.analyzeCall line (Expr.renumberReceiver ρ receiver) name (args.map (Expr.renumber ρ)) =
      Expr.renumber ρ <$> env.analyzeCall line receiver name args := by
  simp only [Env.analyzeCall, h.receiverClass, bind_map_left, map_bind]
  apply bind_congr
  intro found
  cases found with
  | none => simp [Expr.renumber, Mark.renumber, Ty.renumber]
  | some c =>
    simp only [Option.map_some, any_error, map_ty, h.types.resolveMethod, h.describeCall,
      h.types.outline.name]
    split
    · simp [Expr.renumber, Mark.renumber, Ty.renumber]
    · cases env.types.resolveMethod c name .method (args.map Expr.ty) with
      | none => simp [Expr.renumber, Mark.renumber, Ty.renumber]
      | some resolution =>
        have hMethod : (resolution.renumber ρ).method = ρ.method resolution.method := rfl
        have hReturns : ((env.types.methodInfo resolution.method).returns.map
            (Ty.renumber ρ)).getD .error =
              ((env.types.methodInfo resolution.method).returns.getD .error).renumber ρ := by
          cases (env.types.methodInfo resolution.method).returns <;> rfl
        simp only [Option.map_some, hMethod, h.convertArgs, h.callSlot, h.types.returns,
          hReturns, map_pure]
        simp [Expr.renumber, Mark.renumber]

theorem analyzeNew (className : String) (args : List Expr) :
    env'.analyzeNew line className (args.map (Expr.renumber ρ)) =
      Expr.renumber ρ <$> env.analyzeNew line className args := by
  simp only [Env.analyzeNew, h.types.lookup]
  cases env.types.lookupClass className with
  | none => simp [Expr.renumber, Mark.renumber, Ty.renumber]
  | some c =>
    simp only [Option.map_some, any_error, map_ty, h.types.resolveMethod, h.describeCall]
    split
    · simp [Expr.renumber, Mark.renumber, Ty.renumber]
    · cases env.types.resolveMethod c className .constructor (args.map Expr.ty) with
      | none => simp [Expr.renumber, Mark.renumber, Ty.renumber]
      | some resolution =>
        simp only [Option.map_some, h.convertArgs]
        simp [Expr.renumber, Mark.renumber, Ty.renumber, Registry.Resolution.renumber]

/-- A cast names its class, and the same name is known on both sides. What is allowed to be cast depends on
parents alone. -/
theorem analyzeCast (className : String) (operand : Expr) :
    env'.analyzeCast line className (operand.renumber ρ) =
      Expr.renumber ρ <$> env.analyzeCast line className operand := by
  simp only [Env.analyzeCast, h.types.lookup, Expr.ty_renumber]
  cases env.types.lookupClass className with
  | none => rfl
  | some c =>
    cases operand.ty with
    | ofMethod m =>
      simp only [Ty.renumber, Option.map_some, h.types.typeName_ofMethod]
      rfl
    | ofClass _ | int | null | untyped | error | address => rfl

end Env.Mirrors

namespace Expr

mutual

/-- The same expression gives the same tree and the same diagnostics, up to numbers. -/
theorem analyze_renumber (h : env.Mirrors ρ env') : (e : Expr) →
    (e.renumber ρ).analyze env' = renumber ρ <$> e.analyze env
  | .int _ _ | .null _ => rfl
  | .this mark => h.analyzeThis mark.line
  | .var mark name _ => h.analyzeVar mark.line name
  | .binary mark op left right => by
    simp only [renumber, analyze, analyze_renumber h left, analyze_renumber h right, bind_map_left,
      map_bind, h.analyzeBinary]
    rfl
  | .unary mark op operand => by
    simp only [renumber, analyze, analyze_renumber h operand, bind_map_left, map_bind, h.analyzeUnary]
    rfl
  | .assign mark target value => by
    simp only [renumber, analyze, analyze_renumber h target, analyze_renumber h value,
      bind_map_left, map_bind, h.analyzeAssign]
    rfl
  | .field mark object name _ => by
    simp only [renumber, analyze, analyze_renumber h object, bind_map_left, map_bind, h.analyzeField]
    rfl
  | .call mark receiver name args _ _ => by
    simp only [renumber, analyze, analyzeArgs_renumber h args, analyzeReceiver_renumber h receiver,
      bind_map_left, map_bind, h.analyzeCall, renumberAll_eq]
    rfl
  | .new mark className args _ _ => by
    simp only [renumber, analyze, analyzeArgs_renumber h args, bind_map_left, map_bind,
      h.analyzeNew, renumberAll_eq]
    rfl
  | .cast mark className operand _ => by
    simp only [renumber, analyze, analyze_renumber h operand, bind_map_left, map_bind, h.analyzeCast]
    rfl
  | .deref _ address => analyze_renumber h address
  | .convert mark operand => by
    have hTy : ∀ e : Expr, (if (mark.renumber ρ).ty = .untyped then (e.renumber ρ).ty
        else (mark.renumber ρ).ty) = (if mark.ty = .untyped then e.ty else mark.ty).renumber ρ := by
      intro e
      simp only [Mark.renumber, Ty.renumber_eq_untyped, ty_renumber]
      split <;> rfl
    simp only [renumber, analyze, analyze_renumber h operand, bind_map_left, map_bind, hTy,
      map_pure, renumber_widen]

theorem analyzeReceiver_renumber (h : env.Mirrors ρ env') : (receiver : Receiver Expr) →
    analyzeReceiver env' (renumberReceiver ρ receiver) =
      renumberReceiver ρ <$> analyzeReceiver env receiver
  | .implicit | .super => rfl
  | .object e => by
    simp only [renumberReceiver, analyzeReceiver, analyze_renumber h e, bind_map_left, map_bind,
      map_pure]

theorem analyzeArgs_renumber (h : env.Mirrors ρ env') : (args : List Expr) →
    analyzeArgs env' (args.map (renumber ρ)) = List.map (renumber ρ) <$> analyzeArgs env args
  | [] => rfl
  | e :: rest => by
    simp only [List.map_cons, analyzeArgs, analyze_renumber h e, analyzeArgs_renumber h rest,
      bind_map_left, map_bind, map_pure]

end

end Expr

namespace Env.Mirrors

variable (h : env.Mirrors ρ env')

include h

variable (line : Nat)

theorem expectInt (e : Expr) (fault : String → Fault) :
    env'.expectInt line (e.renumber ρ) fault = env.expectInt line e fault := by
  simp only [Env.expectInt, Expr.ty_renumber, Ty.renumber_eq_int, Ty.renumber_eq_error,
    h.types.typeName]

theorem coerceReturn (expected : Ty) (value : Expr) :
    env'.coerceReturn line (expected.renumber ρ) (value.renumber ρ) =
      Expr.renumber ρ <$> env.coerceReturn line expected value := by
  simp only [Env.coerceReturn, Expr.ty_renumber, Ty.renumber_eq_error,
    Ty.renumber_inj h.types.faithful, h.types.outline.isAssignable, h.types.typeName]
  split
  · rfl
  · split <;> simp [Ty.renumber]

/-- What a method may return is told by its kind and its declared type, which both sides share up to numbers. -/
theorem returnValue (m : MethodId) (value : Option Expr) :
    env'.returnValue line (env'.types.methodInfo (ρ.method m)) (value.map (Expr.renumber ρ)) =
      Option.map (Expr.renumber ρ) <$> env.returnValue line (env.types.methodInfo m) value := by
  simp only [Env.returnValue, h.types.kind, h.types.returns, h.types.name]
  cases (env.types.methodInfo m).kind with
  | method =>
    cases value with
    | none => rfl
    | some value =>
      simp only [Option.map_some]
      cases (env.types.methodInfo m).returns with
      | none => rfl
      | some expected =>
        simp only [Option.map_some, h.coerceReturn, bind_map_left, map_bind, map_pure]
  | constructor | destructor => cases value <;> rfl

theorem analyzeReturn (value : Option Expr) : env'.analyzeReturn line (value.map (Expr.renumber ρ)) =
      Stmt.renumber ρ <$> env.analyzeReturn line value := by
  rcases h.method?_cases with ⟨hNone, hNone'⟩ | ⟨m, -, hSome, -, hSome'⟩
  · have hMain : env'.position.inMain = env.position.inMain := by
      rw [h.position]
      rfl
    simp only [Env.analyzeReturn, hNone, hNone', hMain]
    split
    · cases value with
      | none => rfl
      | some e =>
        rw [map_bind]
        exact congrArg (· >>= fun _ => pure (Stmt.ret line (some (e.renumber ρ))
          (some MainBlock.exitLabel))) (h.expectInt line e .mainReturnsInt)
    · rfl
  · simp only [Env.analyzeReturn, hSome, hSome', h.returnValue, bind_map_left, map_bind, map_pure,
      MethodInfo.exitLabel, h.types.label]
    rfl

theorem analyzeDelete (target : Expr) : env'.analyzeDelete line (target.renumber ρ) =
      Stmt.renumber ρ <$> env.analyzeDelete line target := by
  simp only [Env.analyzeDelete, Expr.ty_renumber]
  cases target.ty with
  | ofMethod m =>
    simp only [Ty.renumber, h.types.typeName_ofMethod]
    rfl
  | ofClass _ | int | null | untyped | error | address => rfl

/-- The class whose constructor is called is found from the method around the call, so it is a corresponding
one. -/
theorem resolveDelegate (delegate : Delegate) (args : List Expr) (m : MethodId) :
    env'.resolveDelegate line delegate (args.map (Expr.renumber ρ)) (ρ.method m) =
      Option.map (Registry.Resolution.renumber ρ) <$> env.resolveDelegate line delegate args m := by
  have hSelf : ∀ resolution : Registry.Resolution,
      (resolution.renumber ρ).method = ρ.method m ↔ resolution.method = m :=
    fun _ => ⟨h.types.faithful.method, congrArg ρ.method⟩
  simp only [Env.resolveDelegate, h.types.owner, h.types.outline.parent, any_error, map_ty,
    h.describeCall]
  generalize (env.types.methodInfo m).owner = owner
  cases delegate
  case' super => cases env.types.parent owner
  case super.none => rfl
  all_goals
    simp only [Option.map_some, h.types.outline.name, h.types.resolveMethod]
    generalize env.types.resolveMethod _ _ _ _ = found
    split
    · rfl
    · cases found with
      | none => rfl
      | some resolution =>
        simp only [Option.map_some, hSelf]
        split <;> rfl

/-- Calls of constructors are accepted in the same places. That they are first in the body is told by a flag,
not by a number. -/
theorem analyzeConstruct (first : Bool) (line : Nat) (delegate : Delegate) (args : List Expr) :
    env'.analyzeConstruct first line delegate (args.map (Expr.renumber ρ)) =
      Stmt.renumber ρ <$> env.analyzeConstruct first line delegate args := by
  have hCurrent : (env'.position.method?.filter fun m =>
        (env'.types.methodInfo m).kind = .constructor) =
      (env.position.method?.filter fun m =>
        (env.types.methodInfo m).kind = .constructor).map ρ.method := by
    rw [h.position, Position.method?_renumber]
    cases env.position.method? with
    | none => rfl
    | some m =>
      simp only [Option.map_some, Option.filter_some, h.types.kind]
      split <;> rfl
  simp only [Env.analyzeConstruct, hCurrent]
  cases env.position.method?.filter fun m => (env.types.methodInfo m).kind = .constructor with
  | none => rfl
  | some m =>
    simp only [Option.map_some, h.resolveDelegate, bind_map_left]
    split
    · rw [map_bind]
      apply bind_congr
      intro resolution
      cases resolution with
      | none => rfl
      | some resolution =>
        simp only [Option.map_some, h.convertArgs]
        rfl
    · rfl

end Env.Mirrors

/-- Registries whose bodies are not looked at may be replaced by any with the same interface. -/
theorem Registry.Renumbered.congr_interface {r r' s s' : Registry} (h : Renumbered ρ r r')
    (hs : SameInterface r s) (hs' : SameInterface r' s') : Renumbered ρ s s' where
  faithful := h.faithful
  size := by rw [hs.classes, hs'.classes, h.size]
  lookup := by
    intro name
    rw [lookupClass_of_outline hs.outline, lookupClass_of_outline hs'.outline, h.lookup]
  classInfo := by rw [hs.classInfo, hs'.classInfo]; exact h.classInfo
  heading := by
    intro m
    rw [hs'.headings, hs.headings, h.heading]

namespace Env.Mirrors

/-- The same names are taken. -/
theorem isTaken (h : env.Mirrors ρ env') (name : String) : env'.isTaken name = env.isTaken name := by
  have hParams : env'.method?.any (·.params.declares name) =
      env.method?.any (·.params.declares name) := by
    rcases h.method?_cases with ⟨hNone, hNone'⟩ | ⟨m, -, hSome, -, hSome'⟩
    · rw [hNone, hNone']
    · rw [hSome, hSome', Option.any_some, Option.any_some, h.types.params,
        Bindings.declares_renumber]
  rw [Env.isTaken, Env.isTaken, hParams, h.scope_names, Bindings.declares_renumber]

/-- The same variable may be declared on both sides. -/
theorem allot (h : env.Mirrors ρ env') (name : String) (ty : Ty) :
    (env.allot name ty).Mirrors ρ (env'.allot name (ty.renumber ρ)) where
  types := h.types.congr_interface (h.keeps.interface_setScopeTable _)
    (h.keeps'.interface_setScopeTable _)
  position := by rw [position_allot, position_allot, h.position]
  scope := by
    rw [Env.allot, Env.allot, h.keeps.scopeTable_setScopeTable, h.keeps'.scopeTable_setScopeTable,
      h.scope]
    simp [SymbolTable.renumber, Bindings.renumber]
  keeps := h.keeps.setScopeTable _
  keeps' := h.keeps'.setScopeTable _

end Env.Mirrors

/-- Two analyses that go on in environments that look the same: they report the same, and results and
environments agree up to numbers. -/
structure Analysis.Mirrored {α β : Type} (ρ : Renumbering) (f : α → β)
    (x : Checked (α × Env)) (x' : Checked (β × Env)) : Prop where
  value : x'.value.1 = f x.value.1
  env : x.value.2.Mirrors ρ x'.value.2
  log : x'.log = x.log

namespace Analysis

variable {α α' β β' : Type} {f : α → β}

namespace Mirrored

theorem pure {a : α} {b : β} (h : env.Mirrors ρ env') (hb : b = f a) :
    Mirrored ρ f ((Pure.pure a : Analysis α) env) ((Pure.pure b : Analysis β) env') :=
  ⟨hb, h, rfl⟩

/-- Two analyses that mirror each other may be continued by two that do so in any environments that look the
same. -/
theorem bind {x : Analysis α} {x' : Analysis α'} {k : α → Analysis β} {k' : α' → Analysis β'}
    {f : α → α'} {g : β → β'} (hx : Mirrored ρ f (x env) (x' env'))
    (hk : ∀ a e e', e.Mirrors ρ e' → Mirrored ρ g (k a e) (k' (f a) e')) :
    Mirrored ρ g ((x >>= k) env) ((x' >>= k') env') := by
  have hRest := hk (x env).value.1 _ _ hx.env
  refine ⟨?_, ?_, ?_⟩
  · rw [value_bind, value_bind, hx.value]
    exact hRest.value
  · rw [value_bind, value_bind, hx.value]
    exact hRest.env
  · rw [log_bind, log_bind, hx.log, hx.value, hRest.log]

theorem read {x : Env → Checked α} {x' : Env → Checked β} (h : env.Mirrors ρ env') (hx : x' env' = f <$> x env) :
    Mirrored ρ f (Analysis.read x env) (Analysis.read x' env') := by
  refine ⟨?_, h, ?_⟩
  · rw [value_read, value_read, hx]
    rfl
  · rw [log_read, log_read, hx, Logged.log_map]

end Mirrored

variable (h : env.Mirrors ρ env')
include h

theorem mirrored_declareName (line : Nat) (ty : Ty) (name : String) :
    Mirrored ρ id (declareName line ty name env)
      (declareName line (ty.renumber ρ) name env') := by
  rw [declareName_apply, declareName_apply, h.isTaken]
  split
  · exact ⟨rfl, h, rfl⟩
  · exact ⟨rfl, h.allot name ty, rfl⟩

/-- Several variables of one declaration are declared one after the other, and the same ones are refused. -/
theorem mirrored_declareNames (line : Nat) (ty : Ty)
    (names : List String) :
    Mirrored ρ id (declareNames line ty names env)
      (declareNames line (ty.renumber ρ) names env') := by
  induction names generalizing env env' with
  | nil => exact .pure h rfl
  | cons name rest ih =>
    refine .bind (mirrored_declareName h line ty name) ?_
    intro accepted e e' he
    refine .bind (ih he) ?_
    intro rest e e' he
    exact .pure he rfl

theorem mirrored_condition (construct : Conditional) (e : Expr) :
    Mirrored ρ (Expr.renumber ρ) (condition construct e env)
      (condition construct (e.renumber ρ) env') := by
  apply Mirrored.read h
  simp only [e.analyze_renumber h, bind_map_left, map_bind, Expr.line_renumber, h.expectInt, map_pure]

theorem mirrored_requireLoop (inLoop : Bool) (line : Nat)
    (exit : LoopExit) :
    Mirrored ρ id (requireLoop inLoop line exit env) (requireLoop inLoop line exit env') := by
  cases inLoop <;> exact ⟨rfl, h, rfl⟩

end Analysis

namespace Stmt

mutual

/-- The same statement gives the same tree and the same diagnostics, up to numbers. -/
theorem mirrored_analyze (inLoop first : Bool) : (s : Stmt) → {env env' : Env} → env.Mirrors ρ env' →
    Mirrored ρ (renumber ρ) (s.analyze inLoop first env)
      ((s.renumber ρ).analyze inLoop first env')
  | .expr line e, _, _, h => by
    refine .bind (.read h (e.analyze_renumber h)) ?_
    intro e env env' h
    exact .pure h rfl
  | .declare line type names, _, _, h => by
    refine .bind (.read h (h.types.outline.resolveTypeName line type)) ?_
    intro ty env env' h
    refine .bind (mirrored_declareNames h line ty names) ?_
    intro names env env' h
    exact .pure h rfl
  | .print line e, _, _, h => by
    apply Mirrored.read h
    simp only [e.analyze_renumber h, bind_map_left, map_bind, h.expectInt, map_pure]
    rfl
  | .block line body, _, _, h => by
    refine .bind (mirrored_analyzeAll inLoop body h) ?_
    intro body env env' h
    exact .pure h rfl
  | .branch line cond thenBranch elseBranch, _, _, h => by
    refine .bind (mirrored_condition h .branch cond) ?_
    intro cond env env' h
    refine .bind (mirrored_analyze inLoop false thenBranch h) ?_
    intro thenBranch env env' h
    refine .bind (mirrored_analyzeElse inLoop elseBranch h) ?_
    intro elseBranch env env' h
    exact .pure h rfl
  | .loop line cond body, _, _, h => by
    refine .bind (mirrored_condition h .loop cond) ?_
    intro cond env env' h
    refine .bind (mirrored_analyze true false body h) ?_
    intro body env env' h
    exact .pure h rfl
  | .ret line value _, env, env', h => by
    apply Mirrored.read h
    have hValue : ((value.map (Expr.renumber ρ)).mapM fun e => e.analyze env') =
        Option.map (Expr.renumber ρ) <$> value.mapM fun e => e.analyze env := by
      cases value with
      | none => rfl
      | some e =>
        simp only [Option.map_some, Option.mapM_some, e.analyze_renumber h]
        rfl
    simp only [hValue, bind_map_left, map_bind, h.analyzeReturn]
  | .breakLoop line, _, _, h => by
    refine .bind (mirrored_requireLoop h inLoop line .toEnd) ?_
    intro _ env env' h
    exact .pure h rfl
  | .continueLoop line, _, _, h => by
    refine .bind (mirrored_requireLoop h inLoop line .toCondition) ?_
    intro _ env env' h
    exact .pure h rfl
  | .delete line target, _, _, h => by
    apply Mirrored.read h
    simp only [target.analyze_renumber h, bind_map_left, map_bind, h.analyzeDelete]
  | .construct line delegate args _, _, _, h => by
    apply Mirrored.read h
    simp only [Expr.analyzeArgs_renumber h, bind_map_left, map_bind, h.analyzeConstruct]
  | .empty line, _, _, h => .pure h rfl

theorem mirrored_analyzeElse (inLoop : Bool) : (s : Option Stmt) → {env env' : Env} →
    env.Mirrors ρ env' →
    Mirrored ρ (renumberElse ρ) (analyzeElse inLoop s env)
      (analyzeElse inLoop (renumberElse ρ s) env')
  | none, _, _, h => .pure h rfl
  | some s, _, _, h => by
    refine .bind (mirrored_analyze inLoop false s h) ?_
    intro s env env' h
    exact .pure h rfl

theorem mirrored_analyzeAll (inLoop : Bool) : (body : List Stmt) → {env env' : Env} →
    env.Mirrors ρ env' →
    Mirrored ρ (renumberAll ρ) (analyzeAll inLoop body env)
      (analyzeAll inLoop (renumberAll ρ body) env')
  | [], _, _, h => .pure h rfl
  | s :: rest, _, _, h => by
    refine .bind (mirrored_analyze inLoop false s h) ?_
    intro s env env' h
    refine .bind (mirrored_analyzeAll inLoop rest h) ?_
    intro rest env env' h
    exact .pure h rfl

end

/-- The first statement of a body is typed apart, as constructors may be called there. The others are typed one
after the other. -/
theorem mirrored_analyzeBody (isConstructor : Bool) (body : List Stmt) (h : env.Mirrors ρ env') :
    Mirrored ρ (renumberAll ρ) (analyzeBody isConstructor body env)
      (analyzeBody isConstructor (renumberAll ρ body) env') := by
  cases body with
  | nil => exact .pure h rfl
  | cons s rest =>
    refine .bind (mirrored_analyze false isConstructor s h) ?_
    intro s env env' h
    refine .bind (mirrored_analyzeAll false rest h) ?_
    intro rest env env' h
    exact .pure h rfl

end Stmt
end TLang
