import TLang.Proofs.Machine.Execution

/-! The stack of the machine. What lasts from one short sequence of instructions to the next are the
stack, the frame, the memory and the calls that were made; the other registers are only computed
in. -/
namespace TLang

variable {r r' : Reg}

/-- The part of a machine that lasts from one sequence to the next. -/
@[ext] structure View where
  esp : Word
  ebp : Word
  memory : Memory
  calls : List (SupportRoutine × Word)

namespace View

variable (v : View) (w w' : Word)

def push : View := { v with esp := v.esp - 4, memory := v.memory.store (v.esp - 4) w }

def store (a : Word) : View := { v with memory := v.memory.store a w }

def drop (words : Nat) : View := { v with esp := v.esp + .ofNat 32 (4 * words) }

/-- The word at a distance from the top of the stack. -/
def word (rank : Nat) : Word := v.memory.load (v.esp + .ofNat 32 (4 * rank))

/-- A support routine was called with an argument. -/
def note (routine : SupportRoutine) : View := { v with calls := v.calls ++ [(routine, w)] }

/-- Divisions by zero were reported. -/
def report (lines : List Nat) : View :=
  { v with calls := v.calls ++ lines.map fun line => (.reportDivideByZero, .ofNat 32 line) }

@[simp] theorem report_nil : v.report [] = v := by
  simp [report]

@[simp] theorem drop_drop (n k : Nat) : (v.drop n).drop k = v.drop (n + k) := by
  simp only [drop]
  congr 1
  bv_omega

@[simp] theorem word_drop (n k : Nat) : (v.drop n).word k = v.word (n + k) := by
  simp only [word, drop]
  congr 1
  bv_omega

@[simp] theorem word_push_zero : (v.push w).word 0 = w := by
  simp only [word, push, Nat.mul_zero, BitVec.ofNat_eq_ofNat, BitVec.add_zero]
  exact Memory.load_store _ _ _

@[simp] theorem drop_note (routine : SupportRoutine) (n : Nat) :
    (v.note w routine).drop n = (v.drop n).note w routine :=
  rfl

@[simp] theorem push_note (routine : SupportRoutine) :
    (v.note w routine).push w' = (v.push w').note w routine :=
  rfl

/-- A word that is taken off again leaves room for the next one. -/
@[simp] theorem push_drop_one_push : ((v.push w).drop 1).push w' = v.push w' := by
  have hEsp : v.esp - 4 + BitVec.ofNat 32 (4 * 1) = v.esp := by bv_omega
  simp only [push, drop, hEsp, Memory.store_store]

end View

namespace Machine

variable (m : Machine)

def view : View := ⟨m.regs .esp, m.regs .ebp, m.memory, m.calls⟩

variable (host : Host)

@[simp] theorem read_reg (r : Reg) : m.read host (.reg r) = m.regs r := rfl

@[simp] theorem read_imm (value : Int) : m.read host (.imm value) = .ofInt 32 value :=
  rfl

@[simp] theorem read_mem (base : Reg) : m.read host (.mem 0 base) = m.memory.load (m.regs base) := by
  simp [read]

@[simp] theorem view_push (w : Word) : (m.push w).view = m.view.push w := rfl

@[simp] theorem view_store (a w : Word) : (m.store a w).view = m.view.store w a := rfl

@[simp] theorem regs_store (a w : Word) : (m.store a w).regs = m.regs := rfl

@[simp] theorem view_withFlags (flags : Flags) : (m.withFlags flags).view = m.view := rfl

@[simp] theorem regs_withFlags (flags : Flags) : (m.withFlags flags).regs = m.regs := rfl

@[simp] theorem flags_withFlags (flags : Flags) : (m.withFlags flags).flags = flags := rfl

/-- Registers to compute in are not part of the view. -/
@[simp] theorem view_set (hEsp : r ≠ .esp) (hEbp : r ≠ .ebp) (w : Word) : (m.set r w).view = m.view := by
  simp [view, set, hEsp.symm, hEbp.symm]

@[simp] theorem view_pop (hEsp : r ≠ .esp) (hEbp : r ≠ .ebp) : (m.pop r).view = m.view.drop 1 := by
  rw [pop, view_set _ hEsp hEbp]
  rfl

@[simp] theorem regs_pop (r : Reg) : (m.pop r).regs r = m.view.word 0 := by
  simp [pop, set, view, View.word]

@[simp] theorem memory_pop (r : Reg) : (m.pop r).memory = m.view.memory := rfl

theorem regs_pop_of_ne (hEsp : r' ≠ .esp) (hNe : r' ≠ r) : (m.pop r).regs r' = m.regs r' := by
  simp [pop, set, hEsp, hNe]

@[simp] theorem regs_set (r : Reg) (w : Word) : (m.set r w).regs r = w := if_pos rfl

theorem regs_set_of_ne (hNe : r' ≠ r) (w : Word) : (m.set r w).regs r' = m.regs r' :=
  if_neg hNe

@[simp] theorem view_support (routine : SupportRoutine) :
    (m.support host routine).view = m.view.note (m.view.word 0) routine := by
  simp [view, support, withFlags, set, View.note, View.word]

/-- Taking words off the stack is adding to its pointer. -/
@[simp] theorem view_arith_esp (words : Nat) :
    (m.arith host .esp (.ofInt 32 (4 * words)) .add).view = m.view.drop words := by
  rfl

end Machine
end TLang
