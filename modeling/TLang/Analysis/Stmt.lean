import TLang.Analysis.Expr
import TLang.Syntax.Program

/-! Typing of statements. Declarations extend the table of the current scope; blocks open no scope of
their own. -/
namespace TLang

/-- Analysis of what declares names. It changes the environment and reports diagnostics, and it
always comes to an end with a result. -/
abbrev Analysis := StateT Env Checked

namespace Analysis

/-- Analyze something that only reads the environment. -/
def read {α : Type} (f : Env → Checked α) : Analysis α := fun env => do
  let a ← f env
  return (a, env)

def report (line : Nat) (fault : Fault) : Analysis Unit := read fun _ => Checked.report line fault

/-- Change the registry. It stays as the change leaves it, even where that ends with a refusal. -/
def change {ε α : Type} (x : Registry.Change ε α) : Analysis (Except ε α) := fun env =>
  let (answer, types) := x.on env.types
  pure (answer, { env with types })

end Analysis

namespace Env

open Checked

/-- A value other than an int, unless its fault is already known, is reported. -/
def expectInt (env : Env) (line : Nat) (e : Expr) (fault : String → Fault) : Checked Unit :=
  if e.ty = .int ∨ e.ty = .error then pure () else report line (fault (env.types.typeName e.ty))

/-- Widen a returned value to the declared return type. -/
def coerceReturn (env : Env) (line : Nat) (expected : Ty) (value : Expr) : Checked Expr :=
  if value.ty = .error ∨ expected = .error ∨ value.ty = expected then
    pure value
  else if env.types.isAssignable value.ty expected then
    pure (value.widen expected)
  else do
    report line (.returnMismatch (env.types.typeName value.ty) (env.types.typeName expected))
    return value.withTy .error

/-- What a method may return: a value of its type, or nothing from a constructor or destructor. -/
def returnValue (env : Env) (line : Nat) (method : MethodInfo) (value : Option Expr) :
    Checked (Option Expr) :=
  match method.kind, value with
  | .method, some value =>
    match method.returns with
    | some expected => do
      let value ← env.coerceReturn line expected value
      return some value
    | none => pure (some value)
  | .method, none => do
    report line (.missingReturnValue method.name)
    return none
  | _, some value => do
    report line .returnValueForbidden
    return some value
  | _, none => pure none

/-- A return leaves through the exit of the method around it or of the main block. -/
def analyzeReturn (env : Env) (line : Nat) (value : Option Expr) : Checked Stmt :=
  match env.method? with
  | some method => do
    let value ← env.returnValue line method value
    return .ret line value (some method.exitLabel)
  | none =>
    if env.position.inMain then do
      value.forM fun e => env.expectInt line e .mainReturnsInt
      return .ret line value (some MainBlock.exitLabel)
    else do
      report line .returnOutOfScope
      return .ret line value none

def analyzeDelete (env : Env) (line : Nat) (target : Expr) : Checked Stmt := do
  match target.ty with
  | .ofClass _ | .error => pure ()
  | .int => report line .deleteInt
  | .null => report line .deleteNull
  | found => report line (.deleteOther (env.types.typeName found))
  return .delete line target

/-- Resolve the constructor to which the constructor `current` hands over. It may not be that
constructor itself. -/
def resolveDelegate (env : Env) (line : Nat) (delegate : Delegate) (args : List Expr)
    (current : MethodId) : Checked (Option Registry.Resolution) :=
  let owner := (env.types.methodInfo current).owner
  let target := match delegate with
    | .this => some owner
    | .super => env.types.parent owner
  match target with
  | none => pure none
  | some c =>
    if args.any (·.ty = .error) then
      pure none
    else
      let name := (env.types.classInfo c).name
      match env.types.resolveMethod c name .constructor (args.map Expr.ty) with
      | some resolution =>
        if resolution.method = current then do
          report line (.constructorCallsItself name)
          return none
        else
          pure (some resolution)
      | none => do
        report line (.noConstructor name (env.describeCall name args))
        return none

/-- Call another constructor. This is the first statement of a constructor or a fault. -/
def analyzeConstruct (env : Env) (first : Bool) (line : Nat) (delegate : Delegate)
    (args : List Expr) : Checked Stmt := do
  let unresolved : Stmt := .construct line delegate args none
  match env.position.method?.filter fun m => (env.types.methodInfo m).kind = .constructor with
  | none =>
    report line .constructorCallOutside
    return unresolved
  | some current =>
    if first then
      match ← env.resolveDelegate line delegate args current with
      | some resolution =>
        return .construct line delegate (env.convertArgs resolution args) (some resolution.method)
      | none => return unresolved
    else
      report line .constructorCallNotFirst
      return unresolved

end Env

namespace Analysis

/-- Declare a variable in the current scope. A name that is taken there, or by a parameter, is
reported and refused. -/
def declareName (line : Nat) (ty : Ty) (name : String) : Analysis Bool := do
  let env ← get
  let free := if env.method?.any (·.params.declares name) then none
    else env.scopeTable.install? name ty
  match free with
  | some table =>
    set (env.setScopeTable table)
    return true
  | none =>
    report line (.duplicateVariable name)
    return false

/-- Declare variables in order and keep the names that were accepted. -/
def declareNames (line : Nat) (ty : Ty) : List String → Analysis (List String)
  | [] => pure []
  | name :: rest => do
    let accepted ← declareName line ty name
    let rest ← declareNames line ty rest
    return if accepted then name :: rest else rest

def condition (construct : Conditional) (e : Expr) : Analysis Expr := read fun env => do
  let e ← e.analyze env
  env.expectInt e.line e (.conditionExpectsInt construct)
  return e

def requireLoop (inLoop : Bool) (line : Nat) (exit : LoopExit) : Analysis Unit :=
  if inLoop then pure () else report line (.outsideLoop exit)

end Analysis

open Analysis

mutual

/-- Type a statement. `inLoop` says that a loop of the same body is around it, and `first` that it
opens the body of a constructor. -/
def Stmt.analyze (inLoop first : Bool) : Stmt → Analysis Stmt
  | .expr line e => do
    let e ← read fun env => e.analyze env
    return .expr line e
  | .declare line type names => do
    let ty ← read fun env => env.resolveTypeName line type
    let names ← declareNames line ty names
    return .declare line type names
  | .print line e => read fun env => do
    let e ← e.analyze env
    env.expectInt line e .printExpectsInt
    return .print line e
  | .block line body => do
    let body ← Stmt.analyzeAll inLoop body
    return .block line body
  | .branch line cond thenBranch elseBranch => do
    let cond ← condition .branch cond
    let thenBranch ← thenBranch.analyze inLoop false
    let elseBranch ← Stmt.analyzeElse inLoop elseBranch
    return .branch line cond thenBranch elseBranch
  | .loop line cond body => do
    let cond ← condition .loop cond
    let body ← body.analyze true false
    return .loop line cond body
  | .ret line value _ => read fun env => do
    let value ← value.mapM fun e => e.analyze env
    env.analyzeReturn line value
  | .breakLoop line => do
    requireLoop inLoop line .toEnd
    return .breakLoop line
  | .continueLoop line => do
    requireLoop inLoop line .toCondition
    return .continueLoop line
  | .delete line target => read fun env => do
    let target ← target.analyze env
    env.analyzeDelete line target
  | .construct line delegate args _ => read fun env => do
    let args ← Expr.analyzeArgs env args
    env.analyzeConstruct first line delegate args
  | .empty line => pure (.empty line)

def Stmt.analyzeElse (inLoop : Bool) : Option Stmt → Analysis (Option Stmt)
  | none => pure none
  | some s => do
    let s ← s.analyze inLoop false
    return some s

/-- Type statements that do not open the body of a constructor. -/
def Stmt.analyzeAll (inLoop : Bool) : List Stmt → Analysis (List Stmt)
  | [] => pure []
  | s :: rest => do
    let s ← s.analyze inLoop false
    let rest ← Stmt.analyzeAll inLoop rest
    return s :: rest

end

/-- Type the body of a method or of the main block. Only a constructor may open with a call of
another constructor. -/
def Stmt.analyzeBody (isConstructor : Bool) : List Stmt → Analysis (List Stmt)
  | [] => pure []
  | s :: rest => do
    let s ← s.analyze false isConstructor
    let rest ← Stmt.analyzeAll false rest
    return s :: rest

end TLang
