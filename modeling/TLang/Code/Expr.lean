import TLang.Code.Support
import TLang.Registry.Layout
import TLang.Registry.Dispatch
import TLang.Syntax.Expr

/-! Code for expressions. The code of an expression leaves exactly one word on the stack: the address
of a cell for a node that denotes one, and the value for any other. -/
namespace TLang

namespace Emit

/-- A node is only generated for once analysis has given it a type. -/
def requireTyped (mark : Mark) : Emit Unit :=
  match mark.ty with
  | .error | .untyped => throw (.illTyped mark.line)
  | _ => pure ()

/-- Push the address of a variable. The current object is at 8 bytes from the frame, the arguments
follow it, and the local variables are below the frame. -/
def storageAddress (name : String) : Storage → Emit Unit
  | .mainVar => instrs [.push (.addr (.symbol (mainVarLabel name)))]
  | .param index => instrs [.lea (.mem (12 + 4 * index) .ebp) .eax, .push (.reg .eax)]
  | .localVar slot => instrs [.lea (.mem (-(4 * (slot + 1))) .ebp) .eax, .push (.reg .eax)]
  | .field offset =>
    instrs [.mov (.mem 8 .ebp) (.reg .eax), .arith .add (.imm offset) .eax, .push (.reg .eax)]

/-- Divide the two words on top of the stack. A zero divisor is reported and gives zero. -/
def division (line : Nat) : Emit Unit := do
  let zero ← freshBranch
  let done ← freshBranch
  instrs [.pop .ecx, .arith .cmp (.imm 0) .ecx, .jumpIf .equal zero, .pop .eax, .extendSign,
    .idiv .ecx, .push (.reg .eax), .jump done]
  label zero
  instrs [.pop .eax, .push (.imm line), SupportRoutine.reportDivideByZero.call, .drop 1, .push (.imm 0)]
  label done

/-- Combine the two words on top of the stack by an operation on registers. -/
def arithmetic (op : ArithOp) : Emit Unit :=
  instrs [.pop .edx, .pop .eax, .arith op (.reg .edx) .eax, .push (.reg .eax)]

/-- Compare the two words on top of the stack. The result is one or zero. -/
def comparison (c : Comparison) : Emit Unit :=
  instrs [.pop .edx, .pop .eax, .arith .cmp (.reg .edx) .eax, .set c, .extendByte, .push (.reg .eax)]

def applyBinary (line : Nat) : BinaryOp → Emit Unit
  | .add => arithmetic .add
  | .sub => arithmetic .sub
  | .mul => arithmetic .imul
  | .div => division line
  | .eq => comparison .equal
  | .lt => comparison .less
  | .gt => comparison .greater

def applyUnary : UnaryOp → Emit Unit
  | .neg => instrs [.pop .eax, .neg .eax, .push (.reg .eax)]
  | .not => instrs [.pop .eax, .arith .cmp (.imm 0) .eax, .set .equal, .extendByte, .push (.reg .eax)]

/-- Call through the dispatch table of the object on top of the stack. -/
def dispatch (offset : Nat) : Emit Unit :=
  instrs [.mov (.mem 0 .esp) (.reg .eax), .mov (.mem 0 .eax) (.reg .eax),
    .mov (.mem offset .eax) (.reg .eax), .callReg .eax]

def virtualCall (line : Nat) (slot : Option Nat) : Emit Unit := do
  let slot ← require (.noSlot line) slot
  dispatch (Registry.slotOffset slot)

/-- Allocate an object, point it to the table of its class and run its constructor on the arguments
already on the stack. -/
def allocation (types : Registry) (line : Nat) (c : ClassId) (constructor : MethodId)
    (args : Nat) : Emit Unit := do
  instrs [.push (.imm 4), .push (.imm (types.instanceCells c)), SupportRoutine.allocate.call, .drop 2]
  memoryCheck line
  instrs [.mov (.addr (.symbol (types.classInfo c).vmtLabel)) (.mem 0 .eax), .push (.reg .eax),
    .call (.symbol (types.methodInfo constructor).label), .pop .eax]
  if 0 < args then
    instrs [.drop args]
  instrs [.push (.reg .eax)]

end Emit

open Emit

mutual

/-- Code that leaves the word an expression denotes on the stack. -/
def Expr.code (types : Registry) : Expr → Emit Unit
  | .int mark value => do
    requireTyped mark
    instrs [.push (.imm value.toInt)]
  | .null mark => do
    requireTyped mark
    instrs [.push (.imm 0)]
  | .this mark => do
    requireTyped mark
    loadThis
  | .var mark name storage => do
    requireTyped mark
    let storage ← require (.unresolvedVariable mark.line name) storage
    storageAddress name storage
  | .binary mark op left right => do
    requireTyped mark
    left.code types
    right.code types
    applyBinary mark.line op
  | .unary mark op operand => do
    requireTyped mark
    operand.code types
    applyUnary op
  | .assign mark target value => do
    requireTyped mark
    target.code types
    value.code types
    instrs [.pop .eax, .pop .edx, .mov (.reg .eax) (.mem 0 .edx), .push (.reg .eax)]
  | .field mark object name offset => do
    requireTyped mark
    let offset ← require (.unresolvedField mark.line name) offset
    object.code types
    nullCheck mark.line
    instrs [.pop .eax, .arith .add (.imm offset) .eax, .push (.reg .eax)]
  | .call mark receiver name args method slot => do
    requireTyped mark
    let method ← require (.unresolvedMethod mark.line name) method
    Expr.codeArgs types args
    Expr.codeReceiver types mark.line method slot receiver
    instrs [.drop (args.length + 1), .push (.reg .eax)]
  | .new mark className args cls constructor => do
    requireTyped mark
    let cls ← require (.unresolvedNew mark.line className) cls
    let constructor ← require (.unresolvedNew mark.line className) constructor
    Expr.codeArgs types args
    allocation types mark.line cls constructor args.length
  | .cast mark className operand cls => do
    requireTyped mark
    let cls ← require (.unresolvedCast mark.line className) cls
    operand.code types
    castCheck (types.classInfo cls).vmtLabel mark.line
  | .deref mark address => do
    requireTyped mark
    address.code types
    instrs [.pop .eax, .mov (.mem 0 .eax) (.reg .eax), .push (.reg .eax)]
  | .convert mark operand => do
    requireTyped mark
    operand.code types

/-- Push the receiver of a call and call the method. -/
def Expr.codeReceiver (types : Registry) (line : Nat) (method : MethodId) (slot : Option Nat) :
    Receiver Expr → Emit Unit
  | .super => do
    loadThis
    instrs [.call (.symbol (types.methodInfo method).label)]
  | .implicit => do
    loadThis
    virtualCall line slot
  | .object e => do
    e.code types
    nullCheck line
    virtualCall line slot

/-- Push arguments, the last one first. -/
def Expr.codeArgs (types : Registry) : List Expr → Emit Unit
  | [] => pure ()
  | e :: rest => do
    Expr.codeArgs types rest
    e.code types

end

end TLang
