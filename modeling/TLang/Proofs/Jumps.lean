import TLang.Proofs.Stack.Discipline

/-! Where generated code jumps to. A jump goes to a label that the same code places, to the exit that a
return names, or, where a round is left that began outside, to the labels of the loop around. -/
namespace TLang

open List

/-- The label is handed out between the two states. -/
def EmitState.Creates (s t : EmitState) (l : Label) : Prop := s.taken l = 0 ∧ t.taken l = 1

mutual

/-- The ways in which a statement leaves rounds of a loop around it. -/
def Stmt.leaves : Stmt → List LoopExit
  | .block _ body => Stmt.leavesOfAll body
  | .branch _ _ thenBranch elseBranch => thenBranch.leaves ++ Stmt.leavesOfElse elseBranch
  | .breakLoop _ => [.toEnd]
  | .continueLoop _ => [.toCondition]
  | .expr _ _ | .declare _ _ _ | .print _ _ | .loop _ _ _ | .ret _ _ _ | .delete _ _
  | .construct _ _ _ _ | .empty _ => []

def Stmt.leavesOfElse : Option Stmt → List LoopExit
  | none => []
  | some s => s.leaves

def Stmt.leavesOfAll : List Stmt → List LoopExit
  | [] => []
  | s :: rest => s.leaves ++ Stmt.leavesOfAll rest

end

/-- The line returns to an exit, or leaves a round of the innermost of the loops. -/
def Line.Departs (exits : String → Prop) (leaves : List LoopExit) (loops : List LoopLabels) (l : Line) :
    Prop :=
  (∃ name, exits name ∧ l = .instr (.jump (.symbol name))) ∨
    ∃ exit ∈ leaves, ∃ labels, loops.head? = some labels ∧ l = .instr (.jump (exit.label labels))

/-- Between the two states lines are produced that jump to labels handed out on the way, to labels that
are pending, or away. -/
structure Heading (pending : List Label) (exits : String → Prop) (leaves : List LoopExit) (s t : EmitState)
    (ls : List Line) : Prop where
  loops : t.openLoops = s.openLoops
  grows : ∀ l, s.taken l ≤ t.taken l
  jumps : ∀ l ∈ ls, ∀ target, l.jump? = some target →
    s.Creates t target ∨ target ∈ pending ∨ l.Departs exits leaves s.openLoops

namespace Heading

variable {pending : List Label} {exits : String → Prop} {leaves : List LoopExit} {s s' t : EmitState}
  {first rest : List Line}

theorem append (h : Heading pending exits leaves s s' first) (h' : Heading pending exits leaves s' t rest) :
    Heading pending exits leaves s t (first ++ rest) where
  loops := h'.loops.trans h.loops
  grows l := (h.grows l).trans (h'.grows l)
  jumps := by
    refine forall_mem_append.mpr ⟨fun l hl target hTarget => ?_, fun l hl target hTarget => ?_⟩
    · refine (h.jumps l hl target hTarget).imp_left ?_
      rintro ⟨hNew, hTaken⟩
      have hLater := h'.grows target
      have hBound := t.taken_le_one target
      exact ⟨hNew, by omega⟩
    · rcases h'.jumps l hl target hTarget with ⟨hNew, hTaken⟩ | hElse
      · have hEarlier := h.grows target
        exact .inl ⟨by omega, hTaken⟩
      · exact .inr (h.loops ▸ hElse)

/-- A label that is taken is pending from then on. -/
theorem take {l : Label} (hTakes : s.Takes l s') (h : Heading (l :: pending) exits leaves s' t rest) :
    Heading pending exits leaves s t rest := by
  have hGrows : ∀ l', s.taken l' ≤ s'.taken l' := fun l' => hTakes.taken l' ▸ Nat.le_add_right _ _
  refine ⟨h.loops.trans hTakes.loops, fun l' => (hGrows l').trans (h.grows l'), ?_⟩
  intro line hLine target hTarget
  rcases h.jumps line hLine target hTarget with ⟨hNew, hTaken⟩ | hPending | hDeparts
  · have hEarlier := hGrows target
    exact .inl ⟨by omega, hTaken⟩
  · rcases mem_cons.mp hPending with rfl | hPending
    · have hNow := hTakes.taken target
      rw [count_singleton_self] at hNow
      have hLater := h.grows target
      have hBound := t.taken_le_one target
      exact .inl ⟨by omega, by omega⟩
    · exact .inr (.inl hPending)
  · exact .inr (.inr (hTakes.loops ▸ hDeparts))

end Heading

namespace Emit

variable {α β : Type} {x : Emit α} {f : α → Emit β} {pending : List Label} {exits : String → Prop}
  {leaves : List LoopExit}

/-- Whenever the step succeeds, its lines jump to labels handed out on the way, to labels that are pending,
or away. -/
def Aims (pending : List Label) (exits : String → Prop) (leaves : List LoopExit) (x : Emit α) : Prop :=
  ∀ s a t ls, x s = ⟨(.ok a, t), ls⟩ → Heading pending exits leaves s t ls

namespace Aims

theorem throw (refusal : Refusal) : Aims pending exits leaves (throw refusal : Emit α) := by
  intro s a t ls h
  cases h

/-- Lines that take no label. -/
theorem lines {ls : List Line} (h : ∀ l ∈ ls, ∀ target, l.jump? = some target →
    target ∈ pending ∨ ∀ loops, l.Departs exits leaves loops) : Aims pending exits leaves (lines ls) := by
  intro s a t ls' hEq
  cases hEq
  refine ⟨rfl, fun _ => Nat.le_refl _, ?_⟩
  intro l hl target hTarget
  exact .inr ((h l hl target hTarget).imp_right fun hDeparts => hDeparts s.openLoops)

/-- Instructions that do not jump. -/
theorem instrs {is : List Instr} (h : is.all (·.target?.isNone) = true) :
    Aims pending exits leaves (instrs is) := by
  refine lines ?_
  intro l hl target hTarget
  obtain ⟨i, hi, rfl⟩ := mem_map.mp hl
  cases (Option.isNone_iff_eq_none.mp (all_eq_true.mp h i hi)).symm.trans hTarget

theorem label (l : Label) : Aims pending exits leaves (label l) :=
  lines (forall_mem_singleton.mpr fun _ hTarget => by cases hTarget)

theorem pure (a : α) : Aims pending exits leaves (Pure.pure a : Emit α) := by
  intro s b t ls h
  cases h
  exact ⟨rfl, fun _ => Nat.le_refl _, fun l hl => absurd hl not_mem_nil⟩

theorem require (refusal : Refusal) (a : Option α) : Aims pending exits leaves (require refusal a) := by
  cases a with
  | none => exact throw refusal
  | some a => exact pure a

theorem required {refusal : Refusal} {a : α} (h : Aims pending exits leaves (f a)) :
    Aims pending exits leaves (Emit.require refusal (some a) >>= f) := h

theorem after (hx : Aims pending exits leaves x) (hf : ∀ a, Aims pending exits leaves (f a)) :
    Aims pending exits leaves (x >>= f) := by
  intro s b t ls h
  obtain ⟨a, s', first, rest, hFirst, hRest, rfl⟩ := bind_apply_eq_ok_iff.mp h
  exact (hx s a s' first hFirst).append (hf a s' b t rest hRest)

theorem branch {f : Label → Emit β} (hf : ∀ l, Aims (l :: pending) exits leaves (f l)) :
    Aims pending exits leaves (freshBranch >>= f) :=
  fun s b t ls h => .take s.takes_branch (hf _ _ b t ls h)

theorem loopLabels {f : LoopLabels → Emit β}
    (hf : ∀ p, Aims (p.exit :: p.cond :: pending) exits leaves (f p)) :
    Aims pending exits leaves (freshLoop >>= f) :=
  fun s b t ls h => .take s.takes_loop (.take (EmitState.takes_loop _) (hf ⟨_, _⟩ _ b t ls h))

/-- Instructions that jump to pending labels only. -/
theorem jumps {is : List Instr} (h : ∀ i ∈ is, ∀ target ∈ i.target?, target ∈ pending) :
    Aims pending exits leaves (Emit.instrs is) := by
  refine lines ?_
  intro l hl target hTarget
  obtain ⟨i, hi, rfl⟩ := mem_map.mp hl
  exact .inl (h i hi target hTarget)

/-- Rounds of a loop are left for its labels, which are pending. -/
theorem loop {labels : LoopLabels} {within : List LoopExit} {x : Emit Unit} {y : Emit β}
    (hCond : labels.cond ∈ pending) (hExit : labels.exit ∈ pending) (hx : Aims pending exits within x)
    (hy : Aims pending exits leaves y) : Aims pending exits leaves (do
      enterLoop labels
      x
      exitLoop
      y) := by
  intro s b t ls h
  obtain ⟨_, s₁, _, ls₁, hEnter, hBody, rfl⟩ := bind_apply_eq_ok_iff.mp h
  cases hEnter
  obtain ⟨_, s₂, inner, ls₂, hInner, hLeave, rfl⟩ := bind_apply_eq_ok_iff.mp hBody
  obtain ⟨_, s₃, _, rest, hOut, hRest, rfl⟩ := bind_apply_eq_ok_iff.mp hLeave
  cases hOut
  have hHeading := hx _ _ _ _ hInner
  have hOutside : Heading pending exits leaves s { s₂ with openLoops := s₂.openLoops.tail } inner := by
    refine ⟨congrArg List.tail hHeading.loops, hHeading.grows, ?_⟩
    intro l hl target hTarget
    rcases hHeading.jumps l hl target hTarget with hNew | hPending | hReturns | hLeaves
    · exact .inl hNew
    · exact .inr (.inl hPending)
    · exact .inr (.inr (.inl hReturns))
    · obtain ⟨exit, -, labels', hHead, rfl⟩ := hLeaves
      obtain rfl : labels = labels' := Option.some.inj hHead
      obtain rfl : exit.label labels = target := Option.some.inj hTarget
      cases exit with
      | toEnd => exact .inr (.inl hExit)
      | toCondition => exact .inr (.inl hCond)
  exact hOutside.append (hy _ _ _ _ hRest)

end Aims

theorem aims_steps : StackSteps fun _ _ _ x => Aims pending exits leaves x where
  pure := .pure
  throw := .throw
  bind := .after
  instrs h := .jumps fun i hi target hTarget => by
    rw [h.target?_eq_none i hi] at hTarget
    cases hTarget
  division _ := .branch fun _ => .branch fun _ =>
    .after (.jumps (by simp [Instr.target?])) fun _ => .after (.label _) fun _ =>
      .after (.instrs rfl) fun _ => .label _

theorem aims_logic {types : Registry} : StackLogic types fun _ _ _ x => Aims pending exits leaves x :=
  aims_steps.logic (fun _ _ _ _ => .instrs rfl) fun _ _ => .branch fun _ =>
    .after (.jumps (by simp [Instr.target?, SupportRoutine.call, Instr.drop])) fun _ => .label _

theorem aims_declareCells (names : List String) : Aims pending exits leaves (declareCells names) := by
  have hGet : Aims pending exits leaves (get : Emit EmitState) := by
    intro s a t ls h
    cases h
    exact ⟨rfl, fun _ => Nat.le_refl _, fun l hl => absurd hl not_mem_nil⟩
  refine .after hGet fun _ => iteInduction (fun _ => .lines ?_) fun _ => .pure ()
  intro l hl target hTarget
  obtain ⟨name, -, hl⟩ := mem_flatMap.mp hl
  simp only [mem_cons, not_mem_nil, or_false] at hl
  rcases hl with rfl | rfl | rfl | rfl <;> cases hTarget

theorem aims_leaveRound (line : Nat) {exit : LoopExit} (hExit : exit ∈ leaves) :
    Aims pending exits leaves (leaveRound line exit) := by
  intro s a t ls h
  obtain ⟨labels, rest, hLoops, hJump⟩ := leaveRound_eq_ok h
  cases hJump
  refine ⟨rfl, fun _ => Nat.le_refl _, forall_mem_singleton.mpr fun _ _ => ?_⟩
  exact .inr (.inr (.inr ⟨exit, hExit, labels, by rw [hLoops]; rfl, rfl⟩))

theorem aims_return {name : String} (hName : exits name) :
    Aims pending exits leaves (instrs [.jump (.symbol name)]) :=
  .lines (forall_mem_singleton.mpr fun _ _ => .inr fun _ => .inl ⟨name, hName, rfl⟩)

end Emit

open Emit

section

variable {pending : List Label} {exits : String → Prop} {leaves : List LoopExit} (types : Registry)

/-- The code of an expression jumps to labels of its own. -/
theorem Expr.aims_code (e : Expr) : Aims pending exits leaves (e.code types) := aims_logic.code (n := 0) e

end

section

variable {exits : String → Prop} (types : Registry)

mutual

/-- The code of a statement jumps to labels of its own, to the exits of its returns, and to the loop around
where it leaves a round of that. -/
theorem Stmt.aims_code {pending : List Label} {leaves : List LoopExit} : (stmt : Stmt) →
    ReturnTo exits stmt.parts → stmt.leaves ⊆ leaves → Aims pending exits leaves (stmt.code types)
  | .expr _ e, _, _ | .print _ e, _, _ => .after (e.aims_code types) fun _ => .instrs rfl
  | .declare _ _ names, _, _ => aims_declareCells names
  | .block _ body, h, hLeaves =>
    Stmt.aims_codeAll body (h.within (subset_cons_self _ _)) hLeaves
  | .branch _ cond thenBranch elseBranch, h, hLeaves =>
    have hParts := h.within (subset_cons_self _ _)
    have hThen := hParts.within (subset_append_left _ _)
    have hElse := hParts.within (subset_append_right _ _)
    have hBoth := append_subset.mp hLeaves
    .branch fun _ => .branch fun _ => .after (cond.aims_code types) fun _ =>
      .after (.jumps (by simp [Instr.target?])) fun _ => .after (thenBranch.aims_code hThen hBoth.1) fun _ =>
        .after (.jumps (by simp [Instr.target?])) fun _ => .after (.label _) fun _ =>
          .after (Stmt.aims_codeElse elseBranch hElse hBoth.2) fun _ => .label _
  | .loop _ cond body, h, _ =>
    have hBody := h.within (subset_cons_self _ _)
    .loopLabels fun _ => .after (.label _) fun _ => .after (cond.aims_code types) fun _ =>
      .after (.jumps (by simp [Instr.target?])) fun _ =>
        .loop (by simp) (by simp) (body.aims_code hBody (List.Subset.refl _)) <|
          .after (.jumps (by simp [Instr.target?])) fun _ => .label _
  | .ret _ _ none, _, _ => .throw _
  | .ret _ none (some _), h, _ => .required (aims_return (h _ mem_cons_self _ rfl))
  | .ret _ (some value) (some _), h, _ =>
    .required <| .after (value.aims_code types) fun _ => .after (.instrs rfl) fun _ =>
      aims_return (h _ mem_cons_self _ rfl)
  | .breakLoop _, _, hLeaves | .continueLoop _, _, hLeaves => aims_leaveRound _ (hLeaves (by simp [Stmt.leaves]))
  | .delete _ target, _, _ =>
    .after (target.aims_code types) fun _ => .after (.instrs rfl) fun _ =>
      .after (.instrs rfl) fun _ => .instrs rfl
  | .construct _ _ args _, _, _ =>
    .after (.require _ _) fun _ => .after (aims_logic.codeArgs (n := 0) args) fun _ =>
      .after (.instrs rfl) fun _ => .instrs rfl
  | .empty _, _, _ => .pure ()

theorem Stmt.aims_codeElse {pending : List Label} {leaves : List LoopExit} : (stmt : Option Stmt) →
    ReturnTo exits (partsOfElse stmt) → Stmt.leavesOfElse stmt ⊆ leaves →
      Aims pending exits leaves (Stmt.codeElse types stmt)
  | none, _, _ => .pure ()
  | some stmt, h, hLeaves => stmt.aims_code h hLeaves

theorem Stmt.aims_codeAll {pending : List Label} {leaves : List LoopExit} : (body : List Stmt) →
    ReturnTo exits (partsOfAll body) → Stmt.leavesOfAll body ⊆ leaves →
      Aims pending exits leaves (Stmt.codeAll types body)
  | [], _, _ => .pure ()
  | stmt :: rest, h, hLeaves =>
    have hBoth := append_subset.mp hLeaves
    .after (stmt.aims_code (h.within (subset_append_left _ _)) hBoth.1) fun _ =>
      Stmt.aims_codeAll rest (h.within (subset_append_right _ _)) hBoth.2

end

end

end TLang
