import TLang.Env
import TLang.Logged
import TLang.Registry.Layout
import TLang.Syntax.Expr

/-! Typing of expressions. An expression is analyzed in a fixed environment and yields the typed tree
and its diagnostics, so it cannot change what later code sees. A node that is already in error is not
reported again. -/
namespace TLang

/-- A result and the diagnostics found on the way to it. -/
abbrev Checked := Logged Diagnostic

namespace Checked

def report (line : Nat) (fault : Fault) : Checked Unit := Logged.entry ⟨line, fault⟩

end Checked

/-- A parameter of a method as a variable. -/
def MethodInfo.paramVariable (method : MethodInfo) (name : String) : Option (Ty × Storage) := do
  let index ← method.params.position? name
  let ty ← method.params.type? name
  return (ty, .param index)

/-- The cell that an assignment writes, with the type of what it holds. -/
def Expr.assignTarget (line : Nat) : Expr → Checked (Expr × Ty)
  | .deref mark address => pure (address, mark.ty)
  | target =>
    if target.ty = .error then
      pure (target, .error)
    else do
      Checked.report line .notAssignable
      return (target, .error)

namespace Env

open Checked

/-- The type a written name denotes. -/
def resolveTypeName (env : Env) (line : Nat) : TypeName → Checked Ty
  | .int => pure .int
  | .named name =>
    match env.types.lookupClass name with
    | some id => pure (.ofClass id)
    | none => do
      report line (.unknownType name)
      return .error

/-- A call as messages show it. -/
def describeCall (env : Env) (name : String) (args : List Expr) : String :=
  name ++ "(" ++ ", ".intercalate (args.map fun e => env.types.typeName e.ty) ++ ")"

/-- A field of the class that owns the current method as a variable. -/
def fieldVariable (env : Env) (method : MethodInfo) (name : String) : Option (Ty × Storage) := do
  let table ← env.enclosingTable
  let ty ← table.names.type? name
  let offset ← env.types.fieldOffset method.owner name
  return (ty, .field offset)

/-- The type and storage of a variable. A name is looked up in the current scope, then among the
parameters of the current method, then among the fields of its class. -/
def resolveVariable (env : Env) (name : String) : Option (Ty × Storage) :=
  match env.scopeTable.names.type? name with
  | some ty =>
    match env.position.scope with
    | .method _ => (env.scopeTable.names.position? name).map fun slot => (ty, .localVar slot)
    | .cls c => (env.types.fieldOffset c name).map fun offset => (ty, .field offset)
    | .program => some (ty, .mainVar)
  | none => do
    let method ← env.method?
    method.paramVariable name <|> env.fieldVariable method name

def analyzeThis (env : Env) (line : Nat) : Checked Expr :=
  match env.method? with
  | some method => pure (.this ⟨line, .ofClass method.owner⟩)
  | none => do
    report line .thisOutsideMethod
    return .this ⟨line, .error⟩

/-- A declared variable denotes its cell, which is then read. -/
def analyzeVar (env : Env) (line : Nat) (name : String) : Checked Expr :=
  match env.resolveVariable name with
  | some (ty, storage) => pure (Expr.read (.var ⟨line, .address⟩ name (some storage)) ty)
  | none => do
    report line (.undeclaredVariable name)
    return .var ⟨line, .error⟩ name none

/-- Any value may be compared with null, and objects of related classes with each other. The side
of the more derived class is widened to the class of the other. -/
def analyzeEquality (env : Env) (line : Nat) (left right : Expr) : Checked Expr :=
  match left.ty, right.ty with
  | .error, _ | _, .error => pure (.binary ⟨line, .error⟩ .eq left right)
  | .null, _ | _, .null => pure (.binary ⟨line, .int⟩ .eq left right)
  | .int, .int => pure (.binary ⟨line, .int⟩ .eq left right)
  | .ofClass a, .ofClass b =>
    match env.types.related a b with
    | some ancestor =>
      if a ≠ ancestor then
        pure (.binary ⟨line, .int⟩ .eq (left.widen (.ofClass ancestor)) right)
      else if b ≠ ancestor then
        pure (.binary ⟨line, .int⟩ .eq left (right.widen (.ofClass ancestor)))
      else
        pure (.binary ⟨line, .int⟩ .eq left right)
    | none => do
      report line (.unrelatedComparison (env.types.typeName left.ty) (env.types.typeName right.ty))
      return .binary ⟨line, .error⟩ .eq left right
  | _, _ => do
    report line (.invalidComparison (env.types.typeName left.ty) (env.types.typeName right.ty))
    return .binary ⟨line, .error⟩ .eq left right

def analyzeArithmetic (env : Env) (line : Nat) (op : BinaryOp) (left right : Expr) : Checked Expr :=
  if left.ty = .error ∨ right.ty = .error then
    pure (.binary ⟨line, .error⟩ op left right)
  else if left.ty = .int ∧ right.ty = .int then
    pure (.binary ⟨line, .int⟩ op left right)
  else do
    report line (.operandsNotInt op.symbol
      (env.types.typeName left.ty) (env.types.typeName right.ty))
    return .binary ⟨line, .error⟩ op left right

def analyzeBinary (env : Env) (line : Nat) (op : BinaryOp) (left right : Expr) : Checked Expr :=
  match op with
  | .eq => env.analyzeEquality line left right
  | _ => env.analyzeArithmetic line op left right

def analyzeUnary (env : Env) (line : Nat) (op : UnaryOp) (operand : Expr) : Checked Expr :=
  match operand.ty with
  | .int => pure (.unary ⟨line, .int⟩ op operand)
  | .error => pure (.unary ⟨line, .error⟩ op operand)
  | found => do
    report line (.operandNotInt op.symbol (env.types.typeName found))
    return .unary ⟨line, .error⟩ op operand

/-- The value that is stored in a cell of type `ty`, with the type of the whole assignment. -/
def assignValue (env : Env) (line : Nat) (ty : Ty) (value : Expr) : Checked (Expr × Ty) :=
  let found := env.types.typeName value.ty
  let expected := env.types.typeName ty
  if ty = .error ∨ value.ty = .error then
    pure (value, .error)
  else if ty = value.ty then
    pure (value, ty)
  else if ty = .null then do
    report line .assignToNull
    return (value, .error)
  else if ty = .int ∨ value.ty = .int then do
    report line (.assignMismatch found expected)
    return (value, .error)
  else if env.types.isAssignable value.ty ty then
    pure (value.widen ty, ty)
  else do
    match value.ty, ty with
    | .ofClass source, .ofClass target =>
      if (env.types.related source target).isSome then
        report line (.assignNeedsCast found expected)
      else
        report line (.assignUnrelated found expected)
    | _, _ => report line (.assignUnrelated found expected)
    return (value, .error)

def analyzeAssign (env : Env) (line : Nat) (target value : Expr) : Checked Expr := do
  let (cell, cellTy) ← target.assignTarget line
  let (stored, ty) ← env.assignValue line cellTy value
  return .assign ⟨line, ty⟩ cell stored

def analyzeField (env : Env) (line : Nat) (object : Expr) (name : String) : Checked Expr :=
  let unresolved : Expr := .field ⟨line, .error⟩ object name none
  match object.ty with
  | .error => pure unresolved
  | .ofClass c =>
    match env.types.lookupField c name, env.types.fieldOffset c name with
    | some ty, some offset =>
      pure (Expr.read (.field ⟨line, .address⟩ object name (some offset)) ty)
    | _, _ => do
      report line (.noField (env.types.typeName object.ty) name)
      return unresolved
  | found => do
    report line (.fieldOfNonObject name (env.types.typeName found))
    return unresolved

/-- Widen the arguments of a call whose signature did not match exactly. -/
def convertArgs (env : Env) (resolution : Registry.Resolution) (args : List Expr) : List Expr :=
  if resolution.exact then args
  else (args.zip (env.types.methodInfo resolution.method).params.types).map fun (arg, ty) =>
    if arg.ty = ty then arg else arg.widen ty

/-- The class in which the method of a call is looked up. -/
def receiverClass (env : Env) (line : Nat) (name : String) : Receiver Expr → Checked (Option ClassId)
  | .implicit =>
    match env.method? with
    | some method => pure (some method.owner)
    | none => do
      report line (.callWithoutReceiver name)
      return none
  | .super =>
    match env.method?.bind fun method => env.types.parent method.owner with
    | some parent => pure (some parent)
    | none => do
      report line .superOutsideMethod
      return none
  | .object e =>
    match e.ty with
    | .ofClass c => pure (some c)
    | .error => pure none
    | found => do
      report line (.callOnNonObject name (env.types.typeName found))
      return none

/-- The dispatch slot of a call. A call of a parent's method is bound to it directly. -/
def callSlot (env : Env) (receiver : Receiver Expr) (c : ClassId) (method : MethodInfo) : Option Nat :=
  match receiver with
  | .super => none
  | _ => env.types.vmtSlot c method.signature

def analyzeCall (env : Env) (line : Nat) (receiver : Receiver Expr) (name : String)
    (args : List Expr) : Checked Expr := do
  let unresolved : Expr := .call ⟨line, .error⟩ receiver name args none none
  match ← env.receiverClass line name receiver with
  | none => return unresolved
  | some c =>
    if args.any (·.ty = .error) then
      return unresolved
    else
      match env.types.resolveMethod c name .method (args.map Expr.ty) with
      | some resolution =>
        let method := env.types.methodInfo resolution.method
        return .call ⟨line, method.returns.getD .error⟩ receiver name
          (env.convertArgs resolution args) (some resolution.method)
          (env.callSlot receiver c method)
      | none =>
        report line (.noMethod (env.describeCall name args) (env.types.classInfo c).name)
        return unresolved

def analyzeNew (env : Env) (line : Nat) (className : String) (args : List Expr) : Checked Expr :=
  match env.types.lookupClass className with
  | none => do
    report line (.undeclaredClass className)
    return .new ⟨line, .error⟩ className args none none
  | some c =>
    let unresolved : Expr := .new ⟨line, .error⟩ className args (some c) none
    if args.any (·.ty = .error) then
      pure unresolved
    else
      match env.types.resolveMethod c className .constructor (args.map Expr.ty) with
      | some resolution =>
        pure (.new ⟨line, .ofClass c⟩ className (env.convertArgs resolution args) (some c)
          (some resolution.method))
      | none => do
        report line (.noConstructor className (env.describeCall className args))
        return unresolved

/-- Whether an object is of the class it is cast to is only known when the program runs. -/
def analyzeCast (env : Env) (line : Nat) (className : String) (operand : Expr) : Checked Expr :=
  match env.types.lookupClass className with
  | none => do
    report line (.castToUndeclared className)
    return .cast ⟨line, .error⟩ className operand none
  | some c =>
    match operand.ty with
    | .error => pure (.cast ⟨line, .error⟩ className operand (some c))
    | .ofClass _ | .null => pure (.cast ⟨line, .ofClass c⟩ className operand (some c))
    | found => do
      report line (.invalidCast (env.types.typeName found) className)
      return .cast ⟨line, .error⟩ className operand (some c)

end Env

mutual

/-- Type an expression, operands before the node and the left one first. A read in the tree is
dropped, since analysis of the cell under it puts it back; a widening keeps the type it has. -/
def Expr.analyze (env : Env) : Expr → Checked Expr
  | .int mark value => pure (.int ⟨mark.line, .int⟩ value)
  | .null mark => pure (.null ⟨mark.line, .null⟩)
  | .this mark => env.analyzeThis mark.line
  | .var mark name _ => env.analyzeVar mark.line name
  | .binary mark op left right => do
    let left ← left.analyze env
    let right ← right.analyze env
    env.analyzeBinary mark.line op left right
  | .unary mark op operand => do
    let operand ← operand.analyze env
    env.analyzeUnary mark.line op operand
  | .assign mark target value => do
    let target ← target.analyze env
    let value ← value.analyze env
    env.analyzeAssign mark.line target value
  | .field mark object name _ => do
    let object ← object.analyze env
    env.analyzeField mark.line object name
  | .call mark receiver name args _ _ => do
    let args ← Expr.analyzeArgs env args
    let receiver ← Expr.analyzeReceiver env receiver
    env.analyzeCall mark.line receiver name args
  | .new mark className args _ _ => do
    let args ← Expr.analyzeArgs env args
    env.analyzeNew mark.line className args
  | .cast mark className operand _ => do
    let operand ← operand.analyze env
    env.analyzeCast mark.line className operand
  | .deref _ address => address.analyze env
  | .convert mark operand => do
    let operand ← operand.analyze env
    return operand.widen (if mark.ty = .untyped then operand.ty else mark.ty)

def Expr.analyzeReceiver (env : Env) : Receiver Expr → Checked (Receiver Expr)
  | .implicit => pure .implicit
  | .super => pure .super
  | .object e => do
    let e ← e.analyze env
    return .object e

def Expr.analyzeArgs (env : Env) : List Expr → Checked (List Expr)
  | [] => pure []
  | e :: rest => do
    let e ← e.analyze env
    let rest ← Expr.analyzeArgs env rest
    return e :: rest

end

end TLang
