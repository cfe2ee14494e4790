import TLang.Proofs.Arithmetic.Evaluation
import TLang.Proofs.Machine.Fragments
import TLang.Proofs.Machine.Stack

/-! The short sequences of instructions that operators, reads and assignments consist of. Each one
takes its operands from the top of the stack and leaves its result there. -/
namespace TLang

open Machine Instr

variable {a b : Int32} {op : BinaryOp} {line : Nat}

/-- What an operation puts into its target. -/
def ArithOp.combine (x y : Word) : ArithOp → Word
  | add => x + y
  | sub => x - y
  | imul => x * y
  | cmp => x

theorem Word.setWidth_withLowByte (w : Word) (b : BitVec 8) : (w.withLowByte b).setWidth 8 = b := by
  rw [withLowByte, BitVec.setWidth_append]
  simp

theorem toBitVec_beq (a b : Int32) : (a.toBitVec == b.toBitVec) = decide (a = b) := by
  rw [Bool.eq_iff_iff, beq_iff_eq, decide_eq_true_iff, Int32.toBitVec_inj]

theorem toBitVec_slt (a b : Int32) : a.toBitVec.slt b.toBitVec = decide (a < b) := by
  rw [Bool.eq_iff_iff, decide_eq_true_iff, Int32.lt_iff_toBitVec_slt]

namespace Machine

variable (host : Host) (m : Machine)

theorem view_arith {target : Reg} (hEsp : target ≠ .esp) (hEbp : target ≠ .ebp) (y : Word)
    (op : ArithOp) : (m.arith host target y op).view = m.view := by
  cases op with
  | cmp => rfl
  | add | sub | imul => exact view_set m hEsp hEbp _

theorem regs_arith (target : Reg) (y : Word) (op : ArithOp) :
    (m.arith host target y op).regs target = op.combine (m.regs target) y := by
  cases op <;> simp [arith, set, ArithOp.combine]

end Machine

namespace Emit

variable (host : Host) (m : Machine)

theorem exec_arithmetic (op : ArithOp) :
    ∃ m', execAll host [.pop .edx, .pop .eax, .arith op (.reg .edx) .eax, .push (.reg .eax)] m =
        .ok m' ∧
      m'.view = (m.view.drop 2).push (op.combine (m.view.word 1) (m.view.word 0)) := by
  refine ⟨_, rfl, ?_⟩
  simp [view_arith, regs_arith, regs_pop_of_ne]

/-- The outcome of a comparison, as a word. -/
theorem exec_truth (c : Comparison) :
    ∃ m', execAll host [.set c, .extendByte, .push (.reg .eax)] m = .ok m' ∧
      m'.view = m.view.push ((truth (m.flags.holds c)).toBitVec) := by
  refine ⟨_, rfl, ?_⟩
  cases m.flags.holds c <;> simp [truth, Word.setWidth_withLowByte]

theorem exec_comparison (c : Comparison) :
    ∃ m', execAll host [.pop .edx, .pop .eax, .arith .cmp (.reg .edx) .eax, .set c, .extendByte,
        .push (.reg .eax)] m = .ok m' ∧
      m'.view = (m.view.drop 2).push (truth (c.test (m.view.word 1) (m.view.word 0))).toBitVec := by
  obtain ⟨m', hExec, hView⟩ := exec_truth host (((m.pop .edx).pop .eax).arith host .eax
    (((m.pop .edx).pop .eax).regs .edx) .cmp) c
  refine ⟨m', hExec, hView.trans ?_⟩
  simp [Machine.arith, Flags.holds_ofDifference, regs_pop_of_ne]

theorem exec_neg : ∃ m', execAll host [.pop .eax, .neg .eax, .push (.reg .eax)] m = .ok m' ∧
      m'.view = (m.view.drop 1).push (-m.view.word 0) := by
  refine ⟨_, rfl, ?_⟩
  simp

theorem exec_not : ∃ m', execAll host [.pop .eax, .arith .cmp (.imm 0) .eax, .set .equal, .extendByte,
        .push (.reg .eax)] m = .ok m' ∧
      m'.view = (m.view.drop 1).push (truth (m.view.word 0 == 0)).toBitVec := by
  obtain ⟨m', hExec, hView⟩ := exec_truth host ((m.pop .eax).arith host .eax 0 .cmp) .equal
  refine ⟨m', hExec, hView.trans ?_⟩
  simp [Machine.arith, Flags.holds_ofDifference, Comparison.test]

/-- Replace an address by the word there. -/
theorem exec_read :
    ∃ m', execAll host [.pop .eax, .mov (.mem 0 .eax) (.reg .eax), .push (.reg .eax)] m = .ok m' ∧
      m'.view = (m.view.drop 1).push (m.view.memory.load (m.view.word 0)) := by
  refine ⟨_, rfl, ?_⟩
  simp

/-- Store the word on top at the address below it, and keep it. -/
theorem exec_assign :
    ∃ m', execAll host [.pop .eax, .pop .edx, .mov (.reg .eax) (.mem 0 .edx), .push (.reg .eax)] m =
        .ok m' ∧
      m'.view = ((m.view.drop 2).store (m.view.word 0) (m.view.word 1)).push (m.view.word 0) := by
  refine ⟨_, rfl, ?_⟩
  simp [regs_pop_of_ne]

/-- The dividend on top of the stack is replaced by zero. -/
theorem exec_zeroCode (line : Nat) : ∃ m', execAll host (zeroCode line) m = .ok m' ∧
      m'.view = ((m.view.drop 1).push 0).note (.ofNat 32 line) .reportDivideByZero := by
  refine ⟨_, rfl, ?_⟩
  simp only [view_push, read_imm, view_arith_esp, view_support, View.word_push_zero]
  simp

/-- A word with its sign in front is the same number. -/
theorem toInt_extendSign (w : Word) :
    (if w.msb then (-1 : Word) else 0).toInt * 2 ^ 32 + w.toNat = w.toInt := by
  rw [BitVec.toInt_eq_msb_cond w]
  cases w.msb with
  | true =>
    have hOne : (-1 : Word).toInt = -1 := by decide
    rw [if_pos rfl, if_pos rfl, hOne]
    omega
  | false =>
    rw [if_neg Bool.false_ne_true, if_neg Bool.false_ne_true]
    simp

/-- A machine divides unless there is no quotient. -/
theorem divide_yields {m : Machine} (hDividend : m.dividend = a.toInt) (hZero : b ≠ 0) :
    Yields (fun q m' => m'.view = m.view ∧ m'.regs .eax = q.toBitVec) (m.divide host b.toBitVec)
      (quotient? a b) := by
  rw [divide, quotient?, hDividend, Int32.toInt_toBitVec]
  by_cases hOverflow : a = Int32.minValue ∧ b = -1
  · obtain ⟨rfl, rfl⟩ := hOverflow
    rfl
  · have hDivisor : b.toBitVec ≠ 0 := fun h => hZero (Int32.toBitVec_inj.mp h)
    have hQuotient : a.toInt.tdiv b.toInt = (a / b).toInt := by
      by_cases hLeast : a = Int32.minValue
      · exact (Int32.toInt_div_of_ne_right a b fun h => hOverflow ⟨hLeast, h⟩).symm
      · exact (Int32.toInt_div_of_ne_left a b hLeast).symm
    have hLe := (a / b).le_toInt
    have hLt := (a / b).toInt_lt
    have hFits : ¬ (b.toBitVec = 0 ∨ (a / b).toInt < -2 ^ 31 ∨ 2 ^ 31 ≤ (a / b).toInt) := by
      rintro (h | h | h)
      · exact hDivisor h
      · omega
      · omega
    rw [if_neg hOverflow, hQuotient, if_neg hFits]
    refine ⟨_, rfl, ?_, ?_⟩
    · simp
    · rw [regs_withFlags, regs_set_of_ne _ (by decide), regs_set, ← Int32.toInt_toBitVec,
        BitVec.ofInt_toInt]

/-- Division rounds towards zero, as the machine does, and the one quotient that does not fit halts it. A
divisor of zero is left out. -/
theorem quotientCode_yields (hDividend : m.view.word 0 = a.toBitVec) (hDivisor : m.regs .ecx = b.toBitVec)
    (hZero : b ≠ 0) :
    Yields (fun q m' => m'.view = (m.view.drop 1).push q.toBitVec) (execAll host quotientCode m)
      (quotient? a b) := by
  let extended := (m.pop .eax).set .edx (if ((m.pop .eax).regs .eax).msb then -1 else 0)
  have hNumber : extended.dividend = a.toInt := by
    rw [dividend, regs_set, regs_set_of_ne _ (by decide), toInt_extendSign, regs_pop, hDividend,
      Int32.toInt_toBitVec]
  have hEcx : extended.regs .ecx = b.toBitVec := by
    rw [regs_set_of_ne _ (by decide), regs_pop_of_ne _ (by decide) (by decide), hDivisor]
  have hRun : execAll host quotientCode m =
      extended.divide host (extended.regs .ecx) >>= execAll host [.push (.reg .eax)] := rfl
  rw [hRun, hEcx, ← bind_pure (quotient? a b)]
  refine (divide_yields host hNumber hZero).bind fun q m' hPost => ⟨_, rfl, ?_⟩
  show (m'.push (m'.regs .eax)).view = _
  rw [view_push, hPost.1, hPost.2]
  simp [extended]

/-- Division of the two words on top of the stack. -/
theorem division_yields (line : Nat) (hDividend : m.view.word 1 = a.toBitVec)
    (hDivisor : m.view.word 0 = b.toBitVec) :
    Yields (fun r m' => m'.view = ((m.view.drop 2).push r.1.toBitVec).report r.2)
      (divisionEffect host line m) (BinaryOp.div.apply line a b) := by
  let tested := (m.pop .ecx).arith host .ecx 0 .cmp
  have hView : tested.view = m.view.drop 1 := by
    simp [tested, view_arith]
  have hEffect : divisionEffect host line m =
      if tested.flags.holds .equal then execAll host (zeroCode line) tested
      else execAll host quotientCode tested := rfl
  have hEqual : tested.flags.holds .equal = decide (b = 0) := by
    show (Flags.ofDifference ((m.pop .ecx).regs .ecx) 0).holds .equal = _
    rw [Flags.holds_ofDifference, regs_pop, hDivisor]
    exact toBitVec_beq b 0
  rw [hEffect, hEqual, BinaryOp.apply]
  by_cases hZero : b = 0
  · obtain ⟨m', hRun, hPost⟩ := exec_zeroCode host tested line
    rw [if_pos hZero, if_pos (decide_eq_true hZero)]
    refine ⟨m', hRun, hPost.trans ?_⟩
    rw [hView, View.drop_drop]
    rfl
  · rw [if_neg hZero, if_neg (by simpa using hZero)]
    have hTop : tested.view.word 0 = a.toBitVec := by
      rw [hView, View.word_drop, hDividend]
    have hEcx : tested.regs .ecx = b.toBitVec := by
      simp [tested, regs_arith, ArithOp.combine, hDivisor]
    refine (quotientCode_yields host tested hTop hEcx hZero).map fun q m' hPost => ?_
    rw [hPost, hView]
    simp [View.report]

/-- What the code of a unary operator does to a machine whose stack has the operand on top. -/
def Alters (op : UnaryOp) (effect : Machine → Except Halt Machine) : Prop :=
  ∀ m (a : Int32), m.view.word 0 = a.toBitVec →
    ∃ m', effect m = .ok m' ∧ m'.view = (m.view.drop 1).push (op.apply a).toBitVec

/-- The code of every unary operator replaces the top of the stack by the result. -/
theorem exists_performs_unary (op : UnaryOp) :
    ∃ effect, Performs host (applyUnary op) effect ∧ Alters op effect := by
  cases op with
  | neg =>
    refine ⟨_, .instrs rfl, ?_⟩
    intro m a ha
    obtain ⟨m', hRun, hView⟩ := exec_neg host m
    refine ⟨m', hRun, ?_⟩
    rw [hView, ha, UnaryOp.apply, Int32.toBitVec_neg]
  | not =>
    refine ⟨_, .instrs rfl, ?_⟩
    intro m a ha
    obtain ⟨m', hRun, hView⟩ := exec_not host m
    refine ⟨m', hRun, ?_⟩
    rw [hView, ha, UnaryOp.apply]
    exact congrArg (fun b => View.push _ (truth b).toBitVec) (toBitVec_beq a 0)

/-- What the code of a binary operator does to a machine whose stack has the operands on top. -/
def Combines (op : BinaryOp) (line : Nat) (effect : Machine → Except Halt Machine) : Prop :=
  ∀ m (a b : Int32), m.view.word 1 = a.toBitVec → m.view.word 0 = b.toBitVec →
    Yields (fun r m' => m'.view = ((m.view.drop 2).push r.1.toBitVec).report r.2) (effect m)
      (op.apply line a b)

theorem combines_arithmetic {arith : ArithOp} {f : Int32 → Int32 → Int32}
    (hOp : ∀ a b, op.apply line a b = some (f a b, []))
    (hArith : ∀ a b : Int32, arith.combine a.toBitVec b.toBitVec = (f a b).toBitVec) :
    Combines op line (execAll host
      [.pop .edx, .pop .eax, .arith arith (.reg .edx) .eax, .push (.reg .eax)]) := by
  intro m a b ha hb
  obtain ⟨m', hRun, hView⟩ := exec_arithmetic host m arith
  rw [hOp]
  refine ⟨m', hRun, ?_⟩
  show m'.view = ((m.view.drop 2).push (f a b).toBitVec).report []
  rw [hView, ha, hb, hArith, View.report_nil]

theorem combines_comparison {c : Comparison} {f : Int32 → Int32 → Bool}
    (hOp : ∀ a b, op.apply line a b = some (truth (f a b), []))
    (hTest : ∀ a b : Int32, c.test a.toBitVec b.toBitVec = f a b) :
    Combines op line (execAll host [.pop .edx, .pop .eax, .arith .cmp (.reg .edx) .eax, .set c,
      .extendByte, .push (.reg .eax)]) := by
  intro m a b ha hb
  obtain ⟨m', hRun, hView⟩ := exec_comparison host m c
  rw [hOp]
  refine ⟨m', hRun, ?_⟩
  show m'.view = ((m.view.drop 2).push (truth (f a b)).toBitVec).report []
  rw [hView, ha, hb, hTest, View.report_nil]

/-- The code of every binary operator replaces two words by the result. Division by zero calls the host as well. -/
theorem exists_performs_binary (line : Nat) (op : BinaryOp) :
    ∃ effect, Performs host (applyBinary line op) effect ∧ Combines op line effect := by
  cases op with
  | add => exact ⟨_, .instrs rfl, combines_arithmetic host (fun _ _ => rfl) fun _ _ => rfl⟩
  | sub => exact ⟨_, .instrs rfl, combines_arithmetic host (fun _ _ => rfl) fun _ _ => rfl⟩
  | mul => exact ⟨_, .instrs rfl, combines_arithmetic host (fun _ _ => rfl) fun _ _ => rfl⟩
  | div => exact ⟨_, performs_division host line, fun m _ _ => division_yields host m line⟩
  | eq => exact ⟨_, .instrs rfl, combines_comparison host (fun _ _ => rfl) toBitVec_beq⟩
  | lt => exact ⟨_, .instrs rfl, combines_comparison host (fun _ _ => rfl) toBitVec_slt⟩
  | gt =>
    exact ⟨_, .instrs rfl, combines_comparison host (fun _ _ => rfl) fun a b => toBitVec_slt b a⟩

end Emit
end TLang
