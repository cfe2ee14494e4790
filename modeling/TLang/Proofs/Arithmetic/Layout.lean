import TLang.Proofs.Arithmetic.Evaluation
import TLang.Proofs.Machine.Stack

/-! The cells of variables next to the stack. An evaluation uses the words right below the top of the
stack and the cells of its variables, and leaves every other byte as it is. -/
namespace TLang

/-- Where the cell of a variable is. Arguments are above the frame, local variables below it. -/
def Variable.address (host : Host) (ebp : Word) : Variable → Word
  | main name => host.address (.symbol (mainVarLabel name))
  | param index => ebp + .ofInt 32 (12 + 4 * index)
  | frame slot => ebp + .ofInt 32 (-(4 * (slot + 1)))

/-- The byte at `a` belongs to the words right below `esp`. -/
def Word.HasBelow (esp : Word) (words : Nat) (a : Word) : Prop := (esp - 1 - a).toNat < 4 * words

namespace Word.HasBelow

variable {esp a : Word} {words : Nat}

theorem of_covers (hWords : 1 ≤ words) (h : (esp - 4).Covers a) : esp.HasBelow words a := by
  rw [Covers] at h
  have hNear : (esp - 1 - a).toNat < 4 := by bv_omega
  exact Nat.lt_of_lt_of_le hNear (by omega)

/-- One word further down. -/
theorem of_sub (h : (esp - 4).HasBelow words a) : esp.HasBelow (words + 1) a := by
  rw [HasBelow] at h ⊢
  have hStep : (esp - 1 - a).toNat ≤ (esp - 4 - 1 - a).toNat + 4 := by bv_omega
  omega

/-- The word on top is not below the stack, unless the words below go around. -/
theorem not_of_covers (hFits : 4 * (words + 1) ≤ 2 ^ 32) (h : esp.Covers a) :
    ¬ esp.HasBelow words a := by
  intro hBelow
  rw [Covers] at h
  rw [HasBelow] at hBelow
  have hFar : 2 ^ 32 - 4 ≤ (esp - 1 - a).toNat := by bv_omega
  omega

end Word.HasBelow

/-- The values in the cells of the variables. -/
def View.cells (host : Host) (v : View) : Store := fun x =>
  .ofBitVec (v.memory.load (x.address host v.ebp))

section

variable (host : Host) (xs : List Variable) (words : Nat)

/-- The variables have cells of their own, none of them within the next words of the stack. -/
structure Room (v : View) : Prop where
  /-- The words are different places. -/
  fits : 4 * words ≤ 2 ^ 32
  apart : ∀ x ∈ xs, ∀ y ∈ xs, x ≠ y → (x.address host v.ebp).Apart (y.address host v.ebp)
  clear : ∀ x ∈ xs, ∀ a, (x.address host v.ebp).Covers a → ¬ v.esp.HasBelow words a

/-- Nothing but the next words of the stack and the cells of the variables has changed. -/
def Untouched (v v' : View) : Prop :=
  ∀ a, ¬ v.esp.HasBelow words a → (∀ x ∈ xs, ¬ (x.address host v.ebp).Covers a) →
    v'.memory a = v.memory a

/-- The stack is as it was, and the variables and reports are as given. -/
structure Balanced (v u : View) (σ : Store) (zeroDivisions : List Nat) : Prop where
  esp : u.esp = v.esp
  ebp : u.ebp = v.ebp
  cells : ∀ x ∈ xs, u.cells host x = σ x
  calls : u.calls = (v.report zeroDivisions).calls
  rest : Untouched host xs words v u

/-- One more word is on the stack, the value of an evaluation, whose other effects are there too. -/
structure Pushed (v : View) (r : Evaluated) (v' : View) : Prop where
  esp : v'.esp = v.esp - 4
  ebp : v'.ebp = v.ebp
  value : v'.word 0 = r.value.toBitVec
  cells : ∀ x ∈ xs, v'.cells host x = r.store x
  calls : v'.calls = (v.report r.zeroDivisions).calls
  rest : Untouched host xs words v v'

end

variable {host : Host} {xs : List Variable} {words : Nat} {v u : View} {σ : Store}
  {zeroDivisions : List Nat}

theorem View.memory_push_of_not_hasBelow {a : Word} (hWords : 1 ≤ words)
    (h : ¬ v.esp.HasBelow words a) (w : Word) : (v.push w).memory a = v.memory a :=
  Memory.store_of_not_covers fun hCovers => h (.of_covers hWords hCovers)

/-- What is left of the room when a word has been pushed. -/
theorem Room.next (hRoom : Room host xs (words + 1) v) (hEsp : u.esp = v.esp - 4)
    (hEbp : u.ebp = v.ebp) : Room host xs words u where
  fits := Nat.le_trans (by omega) hRoom.fits
  apart := hEbp ▸ hRoom.apart
  clear := by
    rw [hEbp, hEsp]
    intro x hx a ha hBelow
    exact hRoom.clear x hx a ha hBelow.of_sub

namespace Balanced

theorem refl (hCells : ∀ x ∈ xs, v.cells host x = σ x) : Balanced host xs words v v σ [] where
  esp := rfl
  ebp := rfl
  cells := hCells
  calls := by rw [View.report_nil]
  rest _ _ _ := rfl

theorem report (h : Balanced host xs words v u σ zeroDivisions) (lines : List Nat) :
    Balanced host xs words v (u.report lines) σ (zeroDivisions ++ lines) where
  esp := h.esp
  ebp := h.ebp
  cells := h.cells
  calls := by simp [View.report, h.calls]
  rest := h.rest

/-- A value is stored in the cell of a variable. -/
theorem assign (hRoom : Room host xs words v) (h : Balanced host xs words v u σ zeroDivisions)
    {x : Variable} (hx : x ∈ xs) (value : Int32) :
    Balanced host xs words v (u.store value.toBitVec (x.address host v.ebp)) (σ.assign x value)
      zeroDivisions where
  esp := h.esp
  ebp := h.ebp
  cells := by
    intro y hy
    rw [View.cells, View.store, h.ebp, Store.assign]
    by_cases hEq : y = x
    · rw [if_pos hEq, hEq, Memory.load_store, Int32.ofBitVec_toBitVec]
    · rw [if_neg hEq, Memory.load_store_of_apart (hRoom.apart y hy x hx hEq), ← h.ebp]
      exact h.cells y hy
  calls := h.calls
  rest := by
    intro a hBelow hCells
    rw [← h.rest a hBelow hCells]
    exact Memory.store_of_not_covers (hCells x hx)

/-- The value of an evaluation is pushed last. -/
theorem push (hRoom : Room host xs words v) (hWords : 1 ≤ words)
    (h : Balanced host xs words v u σ zeroDivisions) (value : Int32) :
    Pushed host xs words v { value, store := σ, zeroDivisions } (u.push value.toBitVec) where
  esp := congrArg (· - 4) h.esp
  ebp := h.ebp
  value := View.word_push_zero _ _
  cells := by
    intro x hx
    refine Eq.trans (congrArg Int32.ofBitVec (Memory.load_congr ?_)) (h.cells x hx)
    intro a ha
    have hBelow := hRoom.clear x hx a (h.ebp ▸ ha)
    exact View.memory_push_of_not_hasBelow hWords (h.esp ▸ hBelow) _
  calls := h.calls
  rest := by
    intro a hBelow hCells
    rw [← h.rest a hBelow hCells]
    exact View.memory_push_of_not_hasBelow hWords (h.esp ▸ hBelow) _

end Balanced

namespace Pushed

/-- The word is taken off again. -/
theorem drop {r : Evaluated} (h : Pushed host xs words v r u) :
    Balanced host xs words v (u.drop 1) r.store r.zeroDivisions where
  esp := by
    rw [View.drop, h.esp]
    bv_omega
  ebp := h.ebp
  cells := h.cells
  calls := h.calls
  rest := h.rest

variable {a b : Evaluated} {first second : View}

/-- A second evaluation does not touch the value of the first one. -/
theorem word_one (hRoom : Room host xs (words + 1) v) (h : Pushed host xs (words + 1) v a first)
    (h' : Pushed host xs words first b second) : second.word 1 = a.value.toBitVec := by
  have hEsp : second.esp + .ofNat 32 (4 * 1) = first.esp := by
    rw [h'.esp]
    bv_omega
  have hTop : first.esp + .ofNat 32 (4 * 0) = first.esp := by bv_omega
  rw [← h.value, View.word, View.word, hEsp, hTop]
  refine Memory.load_congr ?_
  intro c hc
  refine h'.rest c (Word.HasBelow.not_of_covers hRoom.fits hc) ?_
  rw [h.ebp]
  intro x hx hCell
  rw [h.esp] at hc
  exact hRoom.clear x hx c hCell (.of_covers (by omega) hc)

/-- Both values are taken off again. -/
theorem drop_two (h : Pushed host xs (words + 1) v a first)
    (h' : Pushed host xs words first b second) :
    Balanced host xs (words + 1) v (second.drop 2) b.store (a.zeroDivisions ++ b.zeroDivisions) where
  esp := by
    rw [View.drop, h'.esp, h.esp]
    bv_omega
  ebp := h'.ebp.trans h.ebp
  cells := h'.cells
  calls := by
    rw [View.drop, h'.calls, View.report, h.calls]
    simp [View.report]
  rest := by
    intro c hBelow hCells
    rw [← h.rest c hBelow hCells]
    refine h'.rest c ?_ ?_
    · rw [h.esp]
      exact fun hNext => hBelow hNext.of_sub
    · rw [h.ebp]
      exact hCells

end Pushed
end TLang
