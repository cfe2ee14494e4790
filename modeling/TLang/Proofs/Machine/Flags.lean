import TLang.Assembly.Instr
import TLang.Proofs.Machine.Memory

/-! The flags of a 32-bit machine. A comparison subtracts, and how its operands compare as signed
numbers is read off the flags of the difference. -/
namespace TLang

/-- What is known of the result of the last computation. -/
structure Flags where
  zero : Bool
  sign : Bool
  overflow : Bool

namespace Flags

def ofSum (x y : Word) : Flags := ⟨x + y == 0, (x + y).msb, x.saddOverflow y⟩

def ofDifference (x y : Word) : Flags := ⟨x - y == 0, (x - y).msb, x.ssubOverflow y⟩

/-- The condition that instructions test. -/
def holds (flags : Flags) : Comparison → Bool
  | .equal => flags.zero
  | .notEqual => !flags.zero
  | .less => flags.sign != flags.overflow
  | .greater => !flags.zero && flags.sign == flags.overflow

end Flags

/-- Whether two words compare like this as signed numbers. -/
def Comparison.test (x y : Word) : Comparison → Bool
  | equal => x == y
  | notEqual => x != y
  | less => x.slt y
  | greater => y.slt x

namespace Flags

variable (x y : Word)

theorem sub_beq_zero : (x - y == 0) = (x == y) := by
  rw [Bool.eq_iff_iff, beq_iff_eq, beq_iff_eq]
  bv_omega

/-- The sign of a difference is wrong just if it overflows. -/
theorem msb_sub_bne_overflow : ((x - y).msb != x.ssubOverflow y) = x.slt y := by
  have hx := x.toInt_lt
  have hx' := x.le_toInt
  have hy := y.toInt_lt
  have hy' := y.le_toInt
  rw [BitVec.msb_eq_toInt, BitVec.toInt_sub, BitVec.ssubOverflow, BitVec.slt, Int.bmod_def]
  generalize x.toInt = a at *
  generalize y.toInt = b at *
  rw [Bool.eq_iff_iff, bne_iff_ne, Ne, Bool.eq_iff_iff]
  simp only [decide_eq_true_eq, Bool.or_eq_true, ge_iff_le]
  omega

theorem slt_eq_not_slt : y.slt x = (!(x == y) && !x.slt y) := by
  rw [Bool.eq_iff_iff, Bool.and_eq_true, Bool.not_eq_true', Bool.not_eq_true', beq_eq_false_iff_ne,
    Ne, ← BitVec.toInt_inj]
  simp only [BitVec.slt, decide_eq_true_eq, decide_eq_false_iff_not]
  omega

theorem holds_ofDifference (c : Comparison) : (ofDifference x y).holds c = c.test x y := by
  cases c with
  | equal => exact sub_beq_zero x y
  | notEqual => exact congrArg not (sub_beq_zero x y)
  | less => exact msb_sub_bne_overflow x y
  | greater =>
    show (!(x - y == 0) && (x - y).msb == x.ssubOverflow y) = y.slt x
    rw [sub_beq_zero, slt_eq_not_slt, ← msb_sub_bne_overflow, bne, Bool.not_not]

end Flags
end TLang
