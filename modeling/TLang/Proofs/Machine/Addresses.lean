import TLang.Code.Expr
import TLang.Proofs.Machine.Stack

/-! The addresses of variables. A block of memory is divided into cells of four bytes, and the frame of a
routine and an object are such blocks. The code of a variable is run here to see which address it leaves on
the stack; whether there is a cell at that address depends on the ranks that analysis gave out. -/
namespace TLang

namespace Word

variable {start a : Word} {i j n : Nat}

/-- A cell of a block that does not go around the end of the address space lies inside the block. -/
theorem inside_of_covers (hi : i < n) (hSize : 4 * n ≤ 2 ^ 32) (ha : (start + .ofNat 32 (4 * i)).Covers a) :
    (a - start).toNat < 4 * n := by
  rw [Covers] at ha
  bv_omega

/-- Different cells of such a block do not overlap. -/
theorem apart_of_ne (hi : i < n) (hj : j < n) (hSize : 4 * n ≤ 2 ^ 32) (hNe : i ≠ j) :
    (start + .ofNat 32 (4 * i)).Apart (start + .ofNat 32 (4 * j)) := by
  intro b hb hb'
  rw [Covers] at hb hb'
  bv_omega

/-- Cells may be counted down from the end of a block, as those of a frame are. -/
theorem sub_eq_add (finish : Word) (hi : i < n) :
    finish - .ofNat 32 (4 * (i + 1)) = finish - .ofNat 32 (4 * n) + .ofNat 32 (4 * (n - 1 - i)) := by
  obtain ⟨k, rfl⟩ := Nat.exists_eq_add_of_lt hi
  rw [show i + k + 1 - 1 - i = k by omega, show 4 * (i + k + 1) = 4 * (i + 1) + 4 * k by omega, BitVec.ofNat_add]
  bv_omega

end Word

namespace Machine

variable (host : Host) (m : Machine) (name : String)

/-- The address that the code of a variable leaves on the stack when it is run. -/
def address (storage : Storage) : Except Halt Word :=
  (fun m' => m'.view.word 0) <$> m.through host (Emit.storageAddress name storage {}).log

/-- The cell of a variable: that of its name, a word above the frame behind the current object, a word
below the frame, or a word of the current object. -/
def place : Storage → Word
  | .mainVar => host.address (.symbol (mainVarLabel name))
  | .param index => m.regs .ebp + .ofNat 32 (12 + 4 * index)
  | .localVar slot => m.regs .ebp - .ofNat 32 (4 * (slot + 1))
  | .field offset => m.memory.load (m.regs .ebp + 8) + .ofNat 32 offset

/-- The code of a variable finds its cell, whatever the machine has computed before. -/
theorem address_eq (storage : Storage) : m.address host name storage = .ok (m.place host name storage) := by
  have hPushed : ∀ (m' : Machine) w, (m'.push w).view.word 0 = w := by simp
  cases storage with
  | mainVar => exact congrArg Except.ok (hPushed _ _)
  | param => exact congrArg Except.ok ((hPushed _ _).trans (regs_set _ _ _))
  | localVar slot =>
    refine congrArg Except.ok ((hPushed _ _).trans ((regs_set _ _ _).trans ?_))
    rw [place, BitVec.sub_eq_add_neg, BitVec.ofInt_neg]
    rfl
  | field offset =>
    refine congrArg Except.ok ((hPushed _ _).trans ?_)
    simp [arith, place, read]

/-- A prologue keeps the frame of the caller and reserves words right below the new frame. -/
theorem through_prologue (locals : Nat) (s : EmitState) : ∃ m',
    m.through host (Emit.prologue name locals s).log = .ok m' ∧ m'.regs .ebp = m.regs .esp - 4 ∧
      m'.regs .esp = m'.regs .ebp - .ofNat 32 (4 * locals) ∧ m'.memory = (m.push (m.regs .ebp)).memory := by
  cases locals with
  | zero => exact ⟨_, rfl, rfl, by simp; rfl, rfl⟩
  | succ locals => exact ⟨_, rfl, rfl, rfl, rfl⟩

end Machine
end TLang
