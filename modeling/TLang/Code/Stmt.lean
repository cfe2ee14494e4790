import TLang.Code.Expr
import TLang.Syntax.Stmt

/-! Code for statements. A statement leaves the stack as high as it found it. -/
namespace TLang

namespace Emit

/-- Reserve a static cell for every variable of the main block. The variables of a method have their
cells in the frame. -/
def declareCells (names : List String) : Emit Unit := do
  if (← get).inMain then
    lines (names.flatMap fun name =>
      [.dataSection, .align, .cell (mainVarLabel name), .textSection])

/-- Go to a label if the word on top of the stack is zero. -/
def jumpIfZero (target : Label) : Emit Unit :=
  instrs [.pop .eax, .arith .cmp (.imm 0) .eax, .jumpIf .equal target]

/-- Leave the round of the innermost loop. -/
def leaveRound (line : Nat) (exit : LoopExit) : Emit Unit := do
  let labels ← require (.outsideLoop line exit) (← currentLoop)
  match exit with
  | .toEnd => instrs [.jump labels.exit]
  | .toCondition => instrs [.jump labels.cond]

/-- Run the destructor of the object on top of the stack and release it. -/
def destroy (line : Nat) : Emit Unit := do
  nullCheck line
  dispatch Registry.destructorOffset
  instrs [SupportRoutine.release.call, .drop 1]

end Emit

open Emit

mutual

/-- Code that carries out a statement. -/
def Stmt.code (types : Registry) : Stmt → Emit Unit
  | .expr _ e => do
    e.code types
    instrs [.drop 1]
  | .declare _ _ names => declareCells names
  | .print _ e => do
    e.code types
    instrs [SupportRoutine.outputInteger.call, .drop 1]
  | .block _ body => Stmt.codeAll types body
  | .branch _ cond thenBranch elseBranch => do
    let otherwise ← freshBranch
    let done ← freshBranch
    cond.code types
    jumpIfZero otherwise
    thenBranch.code types
    instrs [.jump done]
    label otherwise
    Stmt.codeElse types elseBranch
    label done
  | .loop _ cond body => do
    let labels ← freshLoop
    label labels.cond
    cond.code types
    jumpIfZero labels.exit
    enterLoop labels
    body.code types
    exitLoop
    instrs [.jump labels.cond]
    label labels.exit
  | .ret line value exitLabel => do
    let exitLabel ← require (.noExitLabel line) exitLabel
    match value with
    | some value =>
      value.code types
      instrs [.pop .eax]
    | none => pure ()
    instrs [.jump (.symbol exitLabel)]
  | .breakLoop line => leaveRound line .toEnd
  | .continueLoop line => leaveRound line .toCondition
  | .delete line target => do
    target.code types
    destroy line
  | .construct line _ args constructor => do
    let constructor ← require (.unresolvedConstructor line) constructor
    Expr.codeArgs types args
    loadThis
    instrs [.call (.symbol (types.methodInfo constructor).label), .drop (args.length + 1)]
  | .empty _ => pure ()

def Stmt.codeElse (types : Registry) : Option Stmt → Emit Unit
  | none => pure ()
  | some s => s.code types

def Stmt.codeAll (types : Registry) : List Stmt → Emit Unit
  | [] => pure ()
  | s :: rest => do
    s.code types
    Stmt.codeAll types rest

end

end TLang
