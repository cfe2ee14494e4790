import TLang.Assembly.Emit

/-! The routines that are linked to every generated program, and the short sequences that call them.
All are called with their arguments on the stack, the first one on top, and the caller takes the
arguments off again. -/
namespace TLang

inductive SupportRoutine where
  /-- Takes a value and prints it. -/
  | outputInteger
  /-- Takes a line. -/
  | reportDivideByZero
  /-- Takes a line and a reference. -/
  | checkNull
  /-- Takes a line, a dispatch table and an object. -/
  | checkCast
  /-- Takes a line. -/
  | reportOutOfMemory
  /-- Takes a number of cells and the size of a cell. -/
  | allocate
  /-- Takes an object. -/
  | release
deriving DecidableEq

namespace SupportRoutine

def symbol : SupportRoutine → String
  | outputInteger => "RTS_outputInteger"
  | reportDivideByZero => "RTS_printDivideByZeroError"
  | checkNull => "RTS_checkForNullReference"
  | checkCast => "RTS_checkCast"
  | reportOutOfMemory => "RTS_outOfMemoryError"
  | allocate => "calloc"
  | release => "free"

def all : List SupportRoutine :=
  [outputInteger, reportDivideByZero, checkNull, checkCast, reportOutOfMemory, allocate, release]

def call (r : SupportRoutine) : Instr := .call (.symbol r.symbol)

end SupportRoutine

/-- The static cell of a variable of the main block. -/
def mainVarLabel (name : String) : String := "mainvar$" ++ name

namespace Emit

/-- Report a null reference on top of the stack. The reference stays there. -/
def nullCheck (line : Nat) : Emit Unit :=
  instrs [.push (.imm line), SupportRoutine.checkNull.call, .drop 1]

/-- Report an object on top of the stack that is not of the class with the given table. The object
stays there. -/
def castCheck (vmt : String) (line : Nat) : Emit Unit :=
  instrs [.push (.addr (.symbol vmt)), .push (.imm line), SupportRoutine.checkCast.call, .drop 2]

/-- Report a failed allocation. -/
def memoryCheck (line : Nat) : Emit Unit := do
  let done ← freshBranch
  instrs [.arith .cmp (.imm 0) .eax, .jumpIf .notEqual done, .push (.imm line),
    SupportRoutine.reportOutOfMemory.call, .drop 1]
  label done

/-- Push the current object. -/
def loadThis : Emit Unit := instrs [.mov (.mem 8 .ebp) (.reg .eax), .push (.reg .eax)]

/-- Enter a routine and make room for its variables. -/
def prologue (name : String) (locals : Nat) : Emit Unit := do
  lines [.textSection, .align, .global name, .label (.symbol name)]
  instrs [.push (.reg .ebp), .mov (.reg .esp) (.reg .ebp)]
  if 0 < locals then
    instrs [.arith .sub (.imm (4 * locals)) .esp]

/-- Leave a routine. -/
def epilogue : Emit Unit := instrs [.mov (.reg .ebp) (.reg .esp), .pop .ebp, .ret]

end Emit
end TLang
