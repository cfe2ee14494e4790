import Mathlib

/-! The memory of a 32-bit machine: bytes, read and written as words of four, the low byte first.
Words at different addresses may overlap. -/
namespace TLang

/-- A word, which may be an address. -/
abbrev Word := BitVec 32

/-- The bytes of the whole address space. -/
abbrev Memory := Word → BitVec 8

/-- The byte at `a` belongs to the word at `c`. A word may go around the end of the address space. -/
def Word.Covers (c a : Word) : Prop := (a - c).toNat < 4

instance (c a : Word) : Decidable (c.Covers a) := inferInstanceAs (Decidable ((a - c).toNat < 4))

/-- The words at the two addresses have no byte in common. -/
def Word.Apart (c d : Word) : Prop := ∀ a, c.Covers a → ¬ d.Covers a

namespace Memory

variable {memory memory' : Memory} {c d w w' : Word}

/-- The word at an address. -/
def load (memory : Memory) (c : Word) : Word :=
  .ofNat 32 ((memory c).toNat + 256 * (memory (c + 1)).toNat + 65536 * (memory (c + 2)).toNat +
    16777216 * (memory (c + 3)).toNat)

/-- Replace the word at an address. -/
def store (memory : Memory) (c w : Word) : Memory := fun a =>
  if c.Covers a then .ofNat 8 (w.toNat / 256 ^ (a - c).toNat) else memory a

theorem store_of_not_covers {a : Word} (h : ¬ c.Covers a) : memory.store c w a = memory a :=
  if_neg h

theorem store_add (memory : Memory) (c w : Word) (i : Nat) (hi : i < 4) :
    memory.store c w (c + .ofNat 32 i) = .ofNat 8 (w.toNat / 256 ^ i) := by
  have hOffset : (c + BitVec.ofNat 32 i - c).toNat = i := by bv_omega
  have hCovers : c.Covers (c + .ofNat 32 i) := by rwa [Word.Covers, hOffset]
  rw [store, if_pos hCovers, hOffset]

theorem load_store (memory : Memory) (c w : Word) : (memory.store c w).load c = w := by
  have h0 : memory.store c w c = .ofNat 8 (w.toNat / 256 ^ 0) := by
    simpa using store_add memory c w 0 (by omega)
  have h1 : memory.store c w (c + 1) = .ofNat 8 (w.toNat / 256 ^ 1) := store_add _ _ _ 1 (by omega)
  have h2 : memory.store c w (c + 2) = .ofNat 8 (w.toNat / 256 ^ 2) := store_add _ _ _ 2 (by omega)
  have h3 : memory.store c w (c + 3) = .ofNat 8 (w.toNat / 256 ^ 3) := store_add _ _ _ 3 (by omega)
  rw [load, h0, h1, h2, h3]
  apply BitVec.eq_of_toNat_eq
  have hw := w.isLt
  simp only [BitVec.toNat_ofNat]
  omega

/-- A word is read from its four bytes. -/
theorem load_congr (h : ∀ a, c.Covers a → memory a = memory' a) : memory.load c = memory'.load c := by
  have h0 : memory c = memory' c := h c (by rw [Word.Covers]; bv_omega)
  have h1 : memory (c + 1) = memory' (c + 1) := h _ (by rw [Word.Covers]; bv_omega)
  have h2 : memory (c + 2) = memory' (c + 2) := h _ (by rw [Word.Covers]; bv_omega)
  have h3 : memory (c + 3) = memory' (c + 3) := h _ (by rw [Word.Covers]; bv_omega)
  rw [load, load, h0, h1, h2, h3]

theorem load_store_of_apart (h : d.Apart c) : (memory.store c w).load d = memory.load d :=
  load_congr fun a ha => store_of_not_covers (h a ha)

/-- The last of two words written to one address stays. -/
theorem store_store : (memory.store c w).store c w' = memory.store c w' := by
  funext a
  by_cases h : c.Covers a
  · simp [store, h]
  · rw [store_of_not_covers h, store_of_not_covers h, store_of_not_covers h]

end Memory
end TLang
