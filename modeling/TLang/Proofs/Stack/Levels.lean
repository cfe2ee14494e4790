import Mathlib
import TLang.Proofs.Labels

/-! The depth of the stack along lines of assembly, counted from the first line. Counting is consistent if
the depth is never negative and every jump stands as deep as the places it can go to. The rules below
follow the lines with the depths of all labels given. -/
namespace TLang

open List

variable {i : Instr} {is : List Instr} {l : Line} {target : Label}

/-- How many words an instruction adds to the stack. Routines leave their arguments to the caller. -/
def Instr.stackEffect : Instr → Int
  | push _ => 1
  | pop _ => -1
  | arith .add (.imm bytes) .esp => -(bytes / 4)
  | _ => 0

def Instr.target? : Instr → Option Label
  | jump target | jumpIf _ target => some target
  | _ => none

namespace Instr

theorem target?_of_isLevel (h : i.isLevel = true) : i.target? = none := by
  cases i with
  | jump | jumpIf => cases h
  | _ => rfl

theorem stackEffect_of_isLevel (h : i.isLevel = true) : i.stackEffect = 0 := by
  unfold stackEffect
  split
  case h_4 => rfl
  all_goals cases h

theorem Shifts.target?_eq_none {n m : Nat} (h : Shifts n is m) : ∀ i ∈ is, i.target? = none := by
  induction h with
  | nil => exact forall_mem_nil _
  | push _ ih | pop _ _ ih | drop _ _ ih => exact forall_mem_cons.mpr ⟨rfl, ih⟩
  | keep hi _ ih => exact forall_mem_cons.mpr ⟨target?_of_isLevel hi, ih⟩

end Instr

namespace Line

def stackEffect : Line → Int
  | instr i => i.stackEffect
  | _ => 0

/-- The place that a line may go to instead of the next one. -/
def jump? : Line → Option Label
  | instr i => i.target?
  | _ => none

theorem stackEffect_of_jump (h : l.jump? = some target) : l.stackEffect = 0 := by
  cases l with
  | instr i =>
    cases i with
    | jump | jumpIf => rfl
    | _ => cases h
  | _ => cases h

end Line

/-- The label that a return jumps to. -/
def Stmt.exit? : Stmt → Option String
  | ret _ _ exitLabel => exitLabel
  | _ => none

/-- The depth in front of a line, counted from the first one. -/
def depthAt (ls : List Line) (i : Nat) : Int := ((ls.take i).map Line.stackEffect).sum

/-- Code that branches on its own account: a division, or the test behind an allocation. -/
def IsTemplate (ls : List Line) : Prop :=
  ∃ line s t, Emit.division line s = ⟨(.ok (), t), ls⟩ ∨ Emit.memoryCheck line s = ⟨(.ok (), t), ls⟩

/-- The line with the given number is one of a template, and the label is a label of that template. -/
def InTemplate (ls : List Line) (i : Nat) (label : Label) : Prop :=
  ∃ before inner after, IsTemplate inner ∧ ls = before ++ inner ++ after ∧
    before.length ≤ i ∧ i < before.length + inner.length ∧ Line.label label ∈ inner

/-- Counting is consistent and ends at `final`. -/
structure StackDiscipline (ls : List Line) (final : Int) : Prop where
  nonneg : ∀ i, 0 ≤ depthAt ls i
  final : depthAt ls ls.length = final
  agree : ∀ i j l target, ls[i]? = some l → l.jump? = some target →
    ls[j]? = some (.label target) → depthAt ls i = depthAt ls j

/-- A label that a jump goes to is read as no other label of the lines. -/
def ReadsApart (ls : List Line) : Prop :=
  ∀ l ∈ ls, ∀ target label, l.jump? = some target → Line.label label ∈ ls →
    label.text = target.text → label = target

/-- Numbered labels that are read alike are the same. -/
theorem Label.text_inj {l l' : Label} (h : l.IsNumbered) (h' : l'.IsNumbered)
    (hText : l.text = l'.text) : l = l' := by
  have hFirst := congrArg (fun text => text.toList.head?) hText
  cases l with
  | symbol => exact h.elim
  | branch n =>
    cases l' with
    | symbol => exact h'.elim
    | branch n' => simpa [text, Nat.repr_inj] using hText
    | loop n' => simp [text, toString] at hFirst
  | loop n =>
    cases l' with
    | symbol => exact h'.elim
    | branch n' => simp [text, toString] at hFirst
    | loop n' => simpa [text, Nat.repr_inj] using hText

/-- The jumps of a template stay inside it. -/
theorem IsTemplate.label_mem {ls : List Line} (h : IsTemplate ls) (hl : l ∈ ls) (hJump : l.jump? = some target) :
    Line.label target ∈ ls := by
  have hAll : ∀ l ∈ ls, ∀ target ∈ l.jump?, Line.label target ∈ ls := by
    obtain ⟨line, s, t, h | h⟩ := h <;> cases h <;>
      simp [Line.jump?, Instr.target?, Instr.drop, SupportRoutine.call]
  exact hAll l hl target hJump

namespace InTemplate

variable {ls : List Line} {i : Nat} {label : Label}

/-- A template inside part of the lines is one inside all of them. -/
theorem append_left (h : InTemplate ls i label) (first : List Line) :
    InTemplate (first ++ ls) (first.length + i) label := by
  obtain ⟨before, inner, after, hTemplate, rfl, hLe, hLt, hLabel⟩ := h
  refine ⟨first ++ before, inner, after, hTemplate, by simp, ?_, ?_, hLabel⟩
  · rw [length_append]
    omega
  · rw [length_append]
    omega

theorem cons (l : Line) (h : InTemplate ls i label) : InTemplate (l :: ls) (i + 1) label :=
  Nat.add_comm 1 i ▸ h.append_left [l]

end InTemplate

theorem depthAt_cons_succ (l : Line) (ls : List Line) (i : Nat) :
    depthAt (l :: ls) (i + 1) = l.stackEffect + depthAt ls i := by
  rw [depthAt, take_succ_cons, map_cons, sum_cons, depthAt]

theorem depthAt_append_of_le {first : List Line} {i : Nat} (hi : i ≤ first.length)
    (rest : List Line) : depthAt (first ++ rest) i = depthAt first i := by
  rw [depthAt, take_append_of_le_length hi, depthAt]

theorem depthAt_append_add (first rest : List Line) (i : Nat) :
    depthAt (first ++ rest) (first.length + i) = depthAt first first.length + depthAt rest i := by
  rw [depthAt, take_length_add_append, map_append, sum_append, depthAt, take_length, depthAt]

/-- The lines lead from one depth to another, with the labels as deep as `D` says. Outside templates
there are jumps at depth zero only, unless they are `free`. -/
inductive Levels (D : Label → Option Nat) : Bool → Nat → List Line → Nat → Prop where
  | nil {free : Bool} {n : Nat} : Levels D free n [] n
  | line {free : Bool} {n k m : Nat} {l : Line} {ls : List Line} (hJump : l.jump? = none)
      (hEffect : (n : Int) + l.stackEffect = k)
      (hLabel : ∀ label, l = .label label → label.IsNumbered ∧ D label = some n)
      (hRest : Levels D free k ls m) : Levels D free n (l :: ls) m
  | jump {free : Bool} {n m : Nat} {l : Line} {target : Label} {ls : List Line}
      (hJump : l.jump? = some target) (hFree : free = true ∨ n = 0) (hDepth : D target = some n)
      (hRest : Levels D free n ls m) : Levels D free n (l :: ls) m
  | template {free : Bool} {n k m : Nat} {inner ls : List Line} (hTemplate : IsTemplate inner)
      (hInner : Levels D true n inner k) (hRest : Levels D free k ls m) :
      Levels D free n (inner ++ ls) m

namespace Levels

variable {D D' : Label → Option Nat} {free : Bool} {n k m : Nat} {ls rest : List Line}

theorem append (h : Levels D free n ls k) (h' : Levels D free k rest m) :
    Levels D free n (ls ++ rest) m := by
  induction h with
  | nil => exact h'
  | line hJump hEffect hLabel _ ih => exact .line hJump hEffect hLabel (ih h')
  | jump hJump hFree hDepth _ ih => exact .jump hJump hFree hDepth (ih h')
  | template hTemplate hInner _ _ ih =>
    rw [append_assoc]
    exact .template hTemplate hInner (ih h')

/-- More may become known about labels. -/
theorem mono (hD : ∀ l n, D l = some n → D' l = some n) (h : Levels D free n ls m) :
    Levels D' free n ls m := by
  induction h with
  | nil => exact .nil
  | line hJump hEffect hLabel _ ih =>
    exact .line hJump hEffect (fun l hl => (hLabel l hl).imp_right (hD l _)) ih
  | jump hJump hFree hDepth _ ih => exact .jump hJump hFree (hD _ _ hDepth) ih
  | template hTemplate _ _ ihInner ih => exact .template hTemplate ihInner ih

theorem push {source : Operand} (h : Levels D free (n + 1) ls m) :
    Levels D free n (.instr (.push source) :: ls) m :=
  .line rfl rfl nofun h

theorem pop {target : Reg} (h : Levels D free n ls m) :
    Levels D free (n + 1) (.instr (.pop target) :: ls) m :=
  .line rfl (by simp [Line.stackEffect, Instr.stackEffect]) nofun h

theorem drop {words : Nat} (hDepth : n = k + words) (h : Levels D free k ls m) :
    Levels D free n (.instr (.drop words) :: ls) m :=
  .line rfl (by simp [Line.stackEffect, Instr.drop, Instr.stackEffect, hDepth]) nofun h

/-- An instruction that does not use the stack. -/
theorem keep (hTarget : i.target? = none) (hEffect : i.stackEffect = 0) (h : Levels D free n ls m) :
    Levels D free n (.instr i :: ls) m :=
  .line hTarget (by simp [Line.stackEffect, hEffect]) nofun h

theorem placed {l : Label} (hNumbered : l.IsNumbered) (hDepth : D l = some n)
    (h : Levels D free n ls m) : Levels D free n (.label l :: ls) m := by
  refine .line rfl (Int.add_zero _) ?_ h
  rintro _ ⟨rfl⟩
  exact ⟨hNumbered, hDepth⟩

theorem of_shifts (h : Instr.Shifts n is m) : Levels D free n (is.map .instr) m := by
  induction h with
  | nil => exact .nil
  | push _ ih => exact .push ih
  | pop _ _ ih => exact .pop ih
  | drop hDepth _ ih => exact .drop hDepth ih
  | keep hi _ ih => exact .keep (Instr.target?_of_isLevel hi) (Instr.stackEffect_of_isLevel hi) ih

theorem of_template (hTemplate : IsTemplate ls) (h : Levels D true n ls m) : Levels D free n ls m :=
  append_nil ls ▸ .template hTemplate h .nil

/-- Counting ends at the depth that the lines lead to. -/
theorem depthAt_length (h : Levels D free n ls m) : n + depthAt ls ls.length = m := by
  induction h with
  | nil => simp [depthAt]
  | line _ hEffect _ _ ih =>
    rw [length_cons, depthAt_cons_succ]
    omega
  | @jump _ _ _ l _ _ hJump _ _ _ ih =>
    have hEffect : l.stackEffect = 0 := l.stackEffect_of_jump hJump
    rw [length_cons, depthAt_cons_succ]
    omega
  | template _ _ _ ihInner ih =>
    rw [length_append, depthAt_append_add]
    omega

/-- At every line counting gives a depth, and it is the one that labels and jumps there have. -/
theorem exists_depth (h : Levels D free n ls m) (i : Nat) : ∃ d : Nat, n + depthAt ls i = d ∧
      (∀ label, ls[i]? = some (.label label) → label.IsNumbered ∧ D label = some d) ∧
      ∀ l target, ls[i]? = some l → l.jump? = some target →
        D target = some d ∧ (free = true ∨ d = 0 ∨ InTemplate ls i target) := by
  induction h generalizing i with
  | @nil _ n => exact ⟨n, by simp [depthAt], by simp, by simp⟩
  | @line _ n _ _ l _ hJump hEffect hLabel _ ih =>
    cases i with
    | zero =>
      refine ⟨n, by simp [depthAt], ?_, ?_⟩
      · intro label hl
        exact hLabel label (Option.some.inj hl)
      · intro l' target hl hTarget
        cases hl
        rw [hJump] at hTarget
        cases hTarget
    | succ i =>
      obtain ⟨d, hd, hLabels, hJumps⟩ := ih i
      refine ⟨d, by rw [depthAt_cons_succ]; omega, hLabels, ?_⟩
      intro l' target hl hTarget
      exact (hJumps l' target hl hTarget).imp_right fun h => h.imp_right (.imp_right (.cons l))
  | @jump _ n _ l _ _ hJump hFree hDepth _ ih =>
    cases i with
    | zero =>
      refine ⟨n, by simp [depthAt], ?_, ?_⟩
      · intro label hl
        cases hl
        cases hJump
      · intro l' target hl hTarget
        cases hl
        cases hJump.symm.trans hTarget
        exact ⟨hDepth, hFree.imp_right .inl⟩
    | succ i =>
      obtain ⟨d, hd, hLabels, hJumps⟩ := ih i
      have hEffect : l.stackEffect = 0 := l.stackEffect_of_jump hJump
      refine ⟨d, by rw [depthAt_cons_succ]; omega, hLabels, ?_⟩
      intro l' target hl hTarget
      exact (hJumps l' target hl hTarget).imp_right fun h => h.imp_right (.imp_right (.cons l))
  | @template _ n _ _ inner ls hTemplate hInner _ ihInner ih =>
    by_cases hi : i < inner.length
    · obtain ⟨d, hd, hLabels, hJumps⟩ := ihInner i
      rw [depthAt_append_of_le hi.le, List.getElem?_append_left hi]
      refine ⟨d, hd, hLabels, ?_⟩
      intro l target hl hTarget
      refine ⟨(hJumps l target hl hTarget).1, .inr (.inr ?_)⟩
      exact ⟨[], inner, ls, hTemplate, rfl, Nat.zero_le _, by simpa using hi,
        hTemplate.label_mem (mem_of_getElem? hl) hTarget⟩
    · obtain ⟨j, rfl⟩ := Nat.exists_eq_add_of_le (not_lt.mp hi)
      obtain ⟨d, hd, hLabels, hJumps⟩ := ih j
      have hLength := hInner.depthAt_length
      rw [depthAt_append_add, List.getElem?_append_right (by omega), Nat.add_sub_cancel_left]
      refine ⟨d, by omega, hLabels, ?_⟩
      intro l target hl hTarget
      exact (hJumps l target hl hTarget).imp_right fun h =>
        h.imp_right (.imp_right fun hIn => hIn.append_left inner)

theorem stackDiscipline (h : Levels D free 0 ls m) : StackDiscipline ls m where
  nonneg i := by
    obtain ⟨d, hd, -⟩ := h.exists_depth i
    omega
  final := by
    have hLength := h.depthAt_length
    omega
  agree i j l target hl hTarget hLabel := by
    obtain ⟨d, hd, -, hJumps⟩ := h.exists_depth i
    obtain ⟨d', hd', hLabels, -⟩ := h.exists_depth j
    have hEq := (hJumps l target hl hTarget).1.symm.trans (hLabels target hLabel).2
    cases hEq
    omega

end Levels
end TLang
