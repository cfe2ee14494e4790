import TLang.Proofs.Parts
import TLang.Code.Program

/-! Code is generated part by part. Where a tree is accepted, so is every part of it, and the lines of
the part stand next to each other among the lines of the whole. -/
namespace TLang

open List

variable {e : Expr} {s : Stmt}

namespace Emit

variable {α β γ : Type} {x : Emit α} {z : Emit γ} {f : α → Emit β}

/-- A step that succeeds carries out another one on its way, whose lines are among its own. -/
def Contains (whole : Emit β) (part : Emit α) : Prop :=
  ∀ s b t ls, whole s = ⟨(.ok b, t), ls⟩ →
    ∃ s' a t' before inner after, part s' = ⟨(.ok a, t'), inner⟩ ∧ ls = before ++ inner ++ after

namespace Contains

theorem refl (x : Emit α) : Contains x x :=
  fun s a t ls h => ⟨s, a, t, [], ls, [], h, by simp⟩

theorem trans {y : Emit β} (hxy : Contains x y) (hyz : Contains y z) : Contains x z := by
  intro s a t ls h
  obtain ⟨s', b, t', before, inner, after, hy, rfl⟩ := hxy s a t ls h
  obtain ⟨s'', c, t'', before', inner', after', hz, rfl⟩ := hyz s' b t' inner hy
  exact ⟨s'', c, t'', before ++ before', inner', after' ++ after, hz, by simp⟩

theorem left (h : Contains x z) : Contains (x >>= f) z := by
  intro s b t ls hBind
  obtain ⟨a, s', first, second, hx, -, rfl⟩ := bind_apply_eq_ok_iff.mp hBind
  obtain ⟨s'', c, t', before, inner, after, hz, rfl⟩ := h s a s' first hx
  exact ⟨s'', c, t', before, inner, after ++ second, hz, by simp⟩

theorem right (h : ∀ a, Contains (f a) z) : Contains (x >>= f) z := by
  intro s b t ls hBind
  obtain ⟨a, s', first, second, -, hf, rfl⟩ := bind_apply_eq_ok_iff.mp hBind
  obtain ⟨s'', c, t', before, inner, after, hz, rfl⟩ := h a s' b t second hf
  exact ⟨s'', c, t', first ++ before, inner, after, hz, by simp⟩

/-- What is required and given does not end the step. -/
theorem granted {refusal : Refusal} {a : α} (h : Contains (f a) z) :
    Contains (require refusal (some a) >>= f) z :=
  h

theorem forM {f : α → Emit Unit} {as : List α} {a : α} (ha : a ∈ as) : Contains (as.forM f) (f a) := by
  induction as with
  | nil => cases ha
  | cons first rest ih =>
    rcases mem_cons.mp ha with rfl | ha
    · exact left (refl _)
    · exact right fun _ => ih ha

end Contains
end Emit

open Emit

namespace Expr

variable (types : Registry)

theorem contains_codeArgs {args : List Expr} {a : Expr} (ha : a ∈ args) :
    Contains (codeArgs types args) (a.code types) := by
  induction args with
  | nil => cases ha
  | cons first rest ih =>
    rcases mem_cons.mp ha with rfl | ha
    · exact .right fun _ => .refl _
    · exact .left (ih ha)

/-- The code of a node contains that of its operands. -/
theorem contains_operand {node : Expr} (he : e ∈ node.operands) :
    Contains (node.code types) (e.code types) := by
  cases node with
  | int | null | this | var => cases he
  | binary mark op l r =>
    obtain rfl | rfl : e = l ∨ e = r := by simpa [operands] using he
    · exact .right fun _ => .left (.refl _)
    · exact .right fun _ => .right fun _ => .left (.refl _)
  | assign mark target value =>
    obtain rfl | rfl : e = target ∨ e = value := by simpa [operands] using he
    · exact .right fun _ => .left (.refl _)
    · exact .right fun _ => .right fun _ => .left (.refl _)
  | unary | deref =>
    rw [mem_singleton.mp he]
    exact .right fun _ => .left (.refl _)
  | convert =>
    rw [mem_singleton.mp he]
    exact .right fun _ => .refl _
  | field | cast =>
    rw [mem_singleton.mp he]
    exact .right fun _ => .right fun _ => .left (.refl _)
  | new =>
    exact .right fun _ => .right fun _ => .right fun _ => .left (contains_codeArgs types he)
  | call mark receiver name args method slot =>
    refine .right fun _ => .right fun _ => ?_
    rcases mem_append.mp he with he | he
    · cases receiver with
      | implicit | super => cases he
      | object e' =>
        rw [mem_singleton.mp he]
        exact .right fun _ => .left (.left (.refl _))
    · exact .left (contains_codeArgs types he)

theorem contains_part {root : Expr} (h : e.IsPart root) : Contains (root.code types) (e.code types) := by
  induction h with
  | refl => exact .refl _
  | step hOperand _ ih => exact (contains_operand types hOperand).trans ih

end Expr

namespace Stmt

variable (types : Registry)

/-- The code of a statement contains that of its expressions. -/
theorem contains_operand (he : e ∈ s.operands) : Contains (s.code types) (e.code types) := by
  cases s with
  | declare | block | breakLoop | continueLoop | empty => cases he
  | expr | print | delete =>
    rw [mem_singleton.mp he]
    exact .left (.refl _)
  | branch =>
    rw [mem_singleton.mp he]
    exact .right fun _ => .right fun _ => .left (.refl _)
  | loop =>
    rw [mem_singleton.mp he]
    exact .right fun _ => .right fun _ => .left (.refl _)
  | ret line value exitLabel =>
    cases value with
    | none => cases he
    | some e' =>
      rw [mem_singleton.mp he]
      exact .right fun _ => .left (.refl _)
  | construct =>
    exact .right fun _ => .left (Expr.contains_codeArgs types he)

mutual

/-- The code of a statement contains that of the statements inside it. -/
theorem contains_part {part : Stmt} : (s : Stmt) → part ∈ s.parts →
    Contains (s.code types) (part.code types)
  | .expr _ _, h | .declare _ _ _, h | .print _ _, h | .ret _ _ _, h | .breakLoop _, h
  | .continueLoop _, h | .delete _ _, h | .construct _ _ _ _, h | .empty _, h => by
    rw [mem_singleton.mp h]
    exact .refl _
  | .block line body, h => by
    rcases mem_cons.mp h with rfl | h
    · exact .refl _
    · exact contains_partOfAll body h
  | .branch line cond thenBranch elseBranch, h => by
    rcases mem_cons.mp h with rfl | h
    · exact .refl _
    · refine .right fun _ => .right fun _ => .right fun _ => .right fun _ => ?_
      rcases mem_append.mp h with h | h
      · exact .left (contains_part thenBranch h)
      · exact .right fun _ => .right fun _ => .right fun _ => .left (contains_partOfElse elseBranch h)
  | .loop line cond body, h => by
    rcases mem_cons.mp h with rfl | h
    · exact .refl _
    · exact .right fun _ => .right fun _ => .right fun _ => .right fun _ => .right fun _ =>
        .left (contains_part body h)

theorem contains_partOfElse {part : Stmt} : (s : Option Stmt) → part ∈ partsOfElse s →
    Contains (codeElse types s) (part.code types)
  | none, h => by cases h
  | some s, h => contains_part s h

theorem contains_partOfAll {part : Stmt} : (body : List Stmt) → part ∈ partsOfAll body →
    Contains (codeAll types body) (part.code types)
  | [], h => by cases h
  | s :: rest, h => by
    rcases mem_append.mp h with h | h
    · exact .left (contains_part s h)
    · exact .right fun _ => contains_partOfAll rest h

end

end Stmt

namespace Program

variable (types : Registry) (p : Program)

/-- The code of a program contains that of its statements. -/
theorem contains_statement (hs : s ∈ p.statements) : Contains (p.code types) (s.code types) := by
  refine .right fun _ => .right fun _ => .right fun _ => ?_
  rcases mem_append.mp hs with hs | hs
  · obtain ⟨d, hd, hs⟩ := mem_flatMap.mp hs
    obtain ⟨member, hMember, hs⟩ := mem_flatMap.mp hs
    refine .left ((Contains.forM hd).trans (.right fun c => .right fun _ => ?_))
    refine (Contains.forM hMember).trans ?_
    cases member with
    | field d => cases hs
    | method d =>
      exact .right fun _ => .right fun _ => .right fun _ =>
        .left (Stmt.contains_partOfAll types d.body hs)
  · refine .right fun _ => .right fun _ => .right fun _ => .right fun _ => ?_
    exact .left (Stmt.contains_partOfAll types p.main.body hs)

end Program
end TLang
