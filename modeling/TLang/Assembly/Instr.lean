/-! The instructions that generated programs use, on 32-bit words, and how they are written. -/
namespace TLang

/-- The name of a place in the code or in the data. Branches and loops of a program are numbered, all
other places have names. -/
inductive Label where
  | branch (n : Nat)
  | loop (n : Nat)
  | symbol (name : String)
deriving DecidableEq

namespace Label

def text : Label → String
  | branch n => s!"L{n}"
  | loop n => s!"W{n}"
  | symbol name => name

end Label

inductive Reg where
  | eax
  | ecx
  | edx
  | esp
  | ebp
deriving DecidableEq

namespace Reg

def text : Reg → String
  | eax => "%eax"
  | ecx => "%ecx"
  | edx => "%edx"
  | esp => "%esp"
  | ebp => "%ebp"

end Reg

inductive Operand where
  /-- A number. -/
  | imm (value : Int)
  /-- The address of a place. -/
  | addr (place : Label)
  | reg (r : Reg)
  /-- The word in memory at a distance from the address in a register. -/
  | mem (distance : Int) (base : Reg)
deriving DecidableEq

namespace Operand

def text : Operand → String
  | imm value => "$" ++ toString value
  | addr place => "$" ++ place.text
  | reg r => r.text
  | mem distance base =>
    (if distance = 0 then "" else toString distance) ++ "(" ++ base.text ++ ")"

end Operand

/-- How two words compare, as signed numbers. -/
inductive Comparison where
  | equal
  | notEqual
  | less
  | greater
deriving DecidableEq

namespace Comparison

def suffix : Comparison → String
  | equal => "e"
  | notEqual => "ne"
  | less => "l"
  | greater => "g"

end Comparison

/-- Operations on a register and an operand. A comparison keeps its result in the flags only. -/
inductive ArithOp where
  | add
  | sub
  | imul
  | cmp
deriving DecidableEq

namespace ArithOp

def mnemonic : ArithOp → String
  | add => "addl"
  | sub => "subl"
  | imul => "imull"
  | cmp => "cmpl"

end ArithOp

inductive Instr where
  | push (source : Operand)
  | pop (target : Reg)
  | mov (source target : Operand)
  /-- The address that an operand in memory has. -/
  | lea (source : Operand) (target : Reg)
  | arith (op : ArithOp) (source : Operand) (target : Reg)
  | neg (target : Reg)
  /-- Set the low byte of `%eax` to the outcome of the last comparison. -/
  | set (c : Comparison)
  /-- Clear all of `%eax` but its low byte. -/
  | extendByte
  /-- Extend the sign of `%eax` into `%edx`. -/
  | extendSign
  /-- Divide the two words `%edx` and `%eax`, toward zero. -/
  | idiv (divisor : Reg)
  | jump (target : Label)
  | jumpIf (c : Comparison) (target : Label)
  | call (target : Label)
  /-- Call the routine whose address a register holds. -/
  | callReg (target : Reg)
  | ret
deriving DecidableEq

namespace Instr

def text : Instr → String
  | push source => "\tpushl\t" ++ source.text
  | pop target => "\tpopl\t" ++ target.text
  | mov source target => "\tmovl\t" ++ source.text ++ ", " ++ target.text
  | lea source target => "\tleal\t" ++ source.text ++ ", " ++ target.text
  | arith op source target => "\t" ++ op.mnemonic ++ "\t" ++ source.text ++ ", " ++ target.text
  | neg target => "\tnegl\t" ++ target.text
  | set c => "\tset" ++ c.suffix ++ "\t%al"
  | extendByte => "\tmovzbl\t%al, %eax"
  | extendSign => "\tcltd"
  | idiv divisor => "\tidivl\t" ++ divisor.text
  | jump target => "\tjmp\t" ++ target.text
  | jumpIf c target => "\tj" ++ c.suffix ++ "\t" ++ target.text
  | call target => "\tcall\t" ++ target.text
  | callReg target => "\tcall\t*" ++ target.text
  | ret => "\tret"

/-- Take words off the stack without looking at them. -/
def drop (words : Nat) : Instr := arith .add (.imm (4 * words)) .esp

end Instr
end TLang
