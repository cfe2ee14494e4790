import TLang.Proofs.Stack.Levels

/-! The depth of the stack along generated code. Counted from the top of the code of an expression or a
statement, the depth never falls below where it started, every jump stands as deep as the places it
can go to, an expression ends one word deeper and a statement as deep as it began. This holds of all
trees for which code is generated, whether or not they are well typed. -/
namespace TLang

open List

variable {l : Label} {n : Nat}

/-- The labels of the loops entered and not left are numbered, and have been handed out. -/
def EmitState.LoopsTaken (s : EmitState) : Prop :=
  ∀ p ∈ s.openLoops, ∀ l ∈ [p.cond, p.exit], l.IsNumbered ∧ s.taken l = 1

/-- What is known about the depths of labels in a state: none that may still be handed out has one, and
the labels that statements leave for have depth zero. Of the names, those of `exits` are such labels. -/
structure Charts (exits : String → Prop) (D : Label → Option Nat) (s : EmitState) : Prop where
  taken : ∀ l n, D l = some n → s.taken l = 1
  exits : ∀ name n, D (.symbol name) = some n ↔ exits name ∧ n = 0
  loops : ∀ p ∈ s.openLoops, ∀ l ∈ [p.cond, p.exit], l.IsNumbered ∧ D l = some 0

namespace Charts

variable {exits : String → Prop} {D : Label → Option Nat} {s t : EmitState}

theorem loopsTaken (h : Charts exits D s) : s.LoopsTaken :=
  fun p hp l hl => (h.loops p hp l hl).imp_right (h.taken l 0)

/-- A label can be given any depth when it is handed out. -/
theorem take (h : Charts exits D s) (hTakes : s.Takes l t) (n : Nat) :
    ∃ D', (∀ l' n', D l' = some n' → D' l' = some n') ∧ Charts exits D' t ∧ D' l = some n := by
  have hLe : ∀ l', s.taken l' + [l].count l' ≤ 1 := fun l' => hTakes.taken l' ▸ t.taken_le_one l'
  have hNone : ∀ n', D l ≠ some n' := by
    intro n' hD
    have hOne := h.taken l n' hD
    have hCount := hLe l
    rw [count_singleton_self] at hCount
    omega
  have hKeep : ∀ l' n', D l' = some n' → (if l' = l then some n else D l') = some n' := by
    intro l' n' hD
    rw [if_neg, hD]
    rintro rfl
    exact hNone n' hD
  refine ⟨fun l' => if l' = l then some n else D l', hKeep, ⟨?_, ?_, ?_⟩, if_pos rfl⟩
  · intro l' n' hD
    have hCount := hLe l'
    rw [hTakes.taken]
    by_cases hEq : l' = l
    · rw [hEq, count_singleton_self] at hCount ⊢
      omega
    · rw [if_neg hEq] at hD
      have hOne := h.taken l' n' hD
      omega
  · intro name n'
    rw [if_neg (by rintro rfl; exact hTakes.numbered), h.exits]
  · intro p hp l' hl'
    rw [hTakes.loops] at hp
    exact (h.loops p hp l' hl').imp_right (hKeep l' 0)

end Charts

namespace Emit

variable {α β : Type} {x : Emit α} {f : α → Emit β} {exits : String → Prop}
  {known : List (Label × Nat)} {k m : Nat}

/-- Whenever the step succeeds, its lines lead from one depth to another, with the labels known as deep
as is known. Labels handed out on the way may have any depth. -/
def Moves (exits : String → Prop) (known : List (Label × Nat)) (n m : Nat) (x : Emit α) : Prop :=
  ∀ s a t ls, x s = ⟨(.ok a, t), ls⟩ → ∀ D, Charts exits D s → (∀ p ∈ known, D p.1 = some p.2) →
    ∃ D', (∀ l n, D l = some n → D' l = some n) ∧ Charts exits D' t ∧ Levels D' false n ls m

namespace Moves

theorem pure (a : α) : Moves exits known n n (Pure.pure a : Emit α) := by
  intro s b t ls h D hD _
  cases h
  exact ⟨D, fun _ _ => id, hD, .nil⟩

theorem throw (refusal : Refusal) : Moves exits known n m (throw refusal : Emit α) := by
  intro s b t ls h
  cases h

theorem required {refusal : Refusal} {a : α} (h : Moves exits known n m (f a)) :
    Moves exits known n m (Emit.require refusal (some a) >>= f) :=
  h

theorem bind (hx : Moves exits known n k x) (hf : ∀ a, Moves exits known k m (f a)) :
    Moves exits known n m (x >>= f) := by
  intro s b t ls h D hD hKnown
  obtain ⟨a, s', first, rest, hFirst, hRest, rfl⟩ := bind_apply_eq_ok_iff.mp h
  obtain ⟨D₁, hLe₁, hD₁, hLevels₁⟩ := hx s a s' first hFirst D hD hKnown
  obtain ⟨D₂, hLe₂, hD₂, hLevels₂⟩ :=
    hf a s' b t rest hRest D₁ hD₁ fun p hp => hLe₁ _ _ (hKnown p hp)
  exact ⟨D₂, fun l n hl => hLe₂ l n (hLe₁ l n hl), hD₂, (hLevels₁.mono hLe₂).append hLevels₂⟩

/-- Lines that take no label. -/
theorem lines {ls : List Line} (h : ∀ D : Label → Option Nat, (∀ p ∈ known, D p.1 = some p.2) →
    (∀ name, exits name → D (.symbol name) = some 0) → Levels D false n ls m) :
    Moves exits known n m (lines ls) := by
  intro s a t ls' hEq D hD hKnown
  cases hEq
  exact ⟨D, fun _ _ => id, hD, h D hKnown fun name hName => (hD.exits name 0).mpr ⟨hName, rfl⟩⟩

theorem instrs {is : List Instr}
    (h : ∀ D : Label → Option Nat, Levels D false n (is.map .instr) m) :
    Moves exits known n m (instrs is) :=
  lines fun D _ _ => h D

theorem label {l : Label} (hNumbered : l.IsNumbered) (hl : (l, n) ∈ known) :
    Moves exits known n n (label l) :=
  lines fun _ hKnown _ => .placed hNumbered (hKnown _ hl) .nil

/-- A jump that is not part of a template. -/
theorem jump (hl : (l, 0) ∈ known) : Moves exits known 0 0 (Emit.instrs [.jump l]) :=
  lines fun _ hKnown _ => .jump rfl (.inr rfl) (hKnown _ hl) .nil

theorem jumpIfZero {l : Label} (hl : (l, 0) ∈ known) : Moves exits known 1 0 (jumpIfZero l) :=
  lines fun _ hKnown _ => .pop (.keep rfl rfl (.jump rfl (.inr rfl) (hKnown _ hl) .nil))

/-- A branch label is known to have the depth at which it will be placed. -/
theorem branch {f : Label → Emit β} (depth : Nat)
    (hf : ∀ l, l.IsNumbered → Moves exits ((l, depth) :: known) n m (f l)) :
    Moves exits known n m (freshBranch >>= f) := by
  intro s b t ls h D hD hKnown
  obtain ⟨D', hLe, hD', hl⟩ := hD.take s.takes_branch depth
  obtain ⟨D'', hLe', hD'', hLevels⟩ := hf _ s.takes_branch.numbered _ b t ls h D' hD'
    (forall_mem_cons.mpr ⟨hl, fun p hp => hLe _ _ (hKnown p hp)⟩)
  exact ⟨D'', fun l n hl => hLe' l n (hLe l n hl), hD'', hLevels⟩

theorem loopLabels {f : LoopLabels → Emit β}
    (hf : ∀ p, p.cond.IsNumbered → p.exit.IsNumbered →
      Moves exits ((p.cond, 0) :: (p.exit, 0) :: known) n m (f p)) :
    Moves exits known n m (freshLoop >>= f) := by
  intro s b t ls h D hD hKnown
  obtain ⟨D₁, hLe₁, hD₁, hCond⟩ := hD.take s.takes_loop 0
  obtain ⟨D₂, hLe₂, hD₂, hExit⟩ := hD₁.take (EmitState.takes_loop _) 0
  have hBoth : ∀ l n, D l = some n → D₂ l = some n := fun l n hl => hLe₂ l n (hLe₁ l n hl)
  have hKnown₂ : ∀ p ∈ (.loop s.loops, 0) :: (.loop (s.loops + 1), 0) :: known, D₂ p.1 = some p.2 :=
    forall_mem_cons.mpr ⟨hLe₂ _ _ hCond,
      forall_mem_cons.mpr ⟨hExit, fun p hp => hBoth _ _ (hKnown p hp)⟩⟩
  obtain ⟨D₃, hLe₃, hD₃, hLevels⟩ :=
    hf ⟨.loop s.loops, .loop (s.loops + 1)⟩ trivial trivial _ b t ls h D₂ hD₂ hKnown₂
  exact ⟨D₃, fun l n hl => hLe₃ l n (hBoth l n hl), hD₃, hLevels⟩

theorem enterLoop {p : LoopLabels} (hCond : p.cond.IsNumbered) (hExit : p.exit.IsNumbered)
    (hp : (p.cond, 0) ∈ known ∧ (p.exit, 0) ∈ known) : Moves exits known n n (enterLoop p) := by
  intro s a t ls h D hD hKnown
  cases h
  refine ⟨D, fun _ _ => id, ⟨hD.taken, hD.exits, ?_⟩, .nil⟩
  refine forall_mem_cons.mpr ⟨?_, hD.loops⟩
  exact forall_mem_cons.mpr ⟨⟨hCond, hKnown _ hp.1⟩, forall_mem_singleton.mpr ⟨hExit, hKnown _ hp.2⟩⟩

theorem exitLoop : Moves exits known n n exitLoop := by
  intro s a t ls h D hD _
  cases h
  exact ⟨D, fun _ _ => id, ⟨hD.taken, hD.exits, fun p hp => hD.loops p (mem_of_mem_tail hp)⟩, .nil⟩

end Moves

/-- The branches of a division stand one word below its operands. -/
theorem moves_division (line : Nat) : Moves exits known (n + 2) (n + 1) (division line) := by
  intro s a t ls h D hD _
  obtain ⟨D₁, hLe₁, hD₁, hZero⟩ := hD.take s.takes_branch (n + 1)
  obtain ⟨D₂, hLe₂, hD₂, hDone⟩ := hD₁.take (EmitState.takes_branch _) (n + 1)
  have hTemplate : IsTemplate ls := ⟨line, s, t, .inl h⟩
  have hZero := hLe₂ _ _ hZero
  cases h
  refine ⟨D₂, fun l n hl => hLe₂ l n (hLe₁ l n hl), hD₂, .of_template hTemplate ?_⟩
  -- Both paths leave the quotient in place of the dividend.
  exact .pop <| .keep rfl rfl <| .jump rfl (.inl rfl) hZero <| .pop <| .keep rfl rfl <|
    .keep rfl rfl <| .push <| .jump rfl (.inl rfl) hDone <| .placed trivial hZero <|
    .pop <| .push <| .keep rfl rfl <| .drop rfl <| .push <| .placed trivial hDone .nil

theorem moves_memoryCheck (line : Nat) : Moves exits known n n (memoryCheck line) := by
  intro s a t ls h D hD _
  obtain ⟨D', hLe, hD', hDone⟩ := hD.take s.takes_branch n
  have hTemplate : IsTemplate ls := ⟨line, s, t, .inr h⟩
  cases h
  refine ⟨D', hLe, hD', .of_template hTemplate ?_⟩
  exact .keep rfl rfl <| .jump rfl (.inl rfl) hDone <| .push <| .keep rfl rfl <| .drop rfl <|
    .placed trivial hDone .nil

theorem moves_steps : StackSteps fun _ n m x => Moves exits known n m x where
  pure := .pure
  throw := .throw
  bind := .bind
  instrs h := .instrs fun _ => .of_shifts h
  division := moves_division

theorem moves_logic {types : Registry} : StackLogic types fun _ n m x => Moves exits known n m x :=
  moves_steps.logic (fun _ _ _ _ => .instrs fun _ => .keep rfl rfl .nil) fun _ => moves_memoryCheck

/-- Cells are reserved by lines that do nothing. -/
theorem moves_declareCells (names : List String) : Moves exits known n n (declareCells names) := by
  have hCells : ∀ D : Label → Option Nat, Levels D false n (names.flatMap fun name =>
      [.dataSection, .align, .cell (mainVarLabel name), .textSection]) n := by
    intro D
    induction names with
    | nil => exact .nil
    | cons name names ih =>
      exact .line rfl (Int.add_zero _) nofun <| .line rfl (Int.add_zero _) nofun <|
        .line rfl (Int.add_zero _) nofun <| .line rfl (Int.add_zero _) nofun ih
  have hGet : Moves exits known n n (get : Emit EmitState) := by
    intro s a t ls h D hD _
    cases h
    exact ⟨D, fun _ _ => id, hD, .nil⟩
  exact .bind hGet fun _ => iteInduction (fun _ => .lines fun D _ _ => hCells D) fun _ => .pure ()

/-- A round is left at depth zero. -/
theorem moves_leaveRound (line : Nat) (exit : LoopExit) :
    Moves exits known 0 0 (leaveRound line exit) := by
  intro s a t ls h D hD _
  obtain ⟨labels, rest, hLoops, hJump⟩ := leaveRound_eq_ok h
  have hLabels := hD.loops labels (by rw [hLoops]; exact mem_cons_self) (exit.label labels)
    (by cases exit <;> simp [LoopExit.label])
  cases hJump
  exact ⟨D, fun _ _ => id, hD, .jump rfl (.inr rfl) hLabels.2 .nil⟩

end Emit

open Emit

section

variable {exits : String → Prop} {known : List (Label × Nat)} (types : Registry)

/-- The code of an expression leaves one word. -/
theorem Expr.moves_code (e : Expr) : Moves exits known n (n + 1) (e.code types) := moves_logic.code e

/-- The statements return to labels of `exits`. The statements inside them are not looked at. -/
def Stmt.ReturnTo (exits : String → Prop) (ss : List Stmt) : Prop :=
  ∀ s ∈ ss, ∀ name ∈ s.exit?, exits name

theorem Stmt.ReturnTo.within {ss more : List Stmt} (h : ReturnTo exits more) (hss : ss ⊆ more) :
    ReturnTo exits ss :=
  fun s hs => h s (hss hs)

theorem Emit.moves_return {name : String} (hName : exits name) :
    Moves exits known 0 0 (instrs [.jump (.symbol name)]) :=
  .lines fun _ _ hExits => .jump rfl (.inr rfl) (hExits name hName) .nil

mutual

/-- The code of a statement leaves the stack as it is. -/
theorem Stmt.moves_code {known : List (Label × Nat)} : (stmt : Stmt) →
    ReturnTo exits stmt.parts → Moves exits known 0 0 (stmt.code types)
  | .expr _ e, _ => .bind (e.moves_code types) fun _ => .instrs fun _ => .drop rfl .nil
  | .print _ e, _ =>
    .bind (e.moves_code types) fun _ => .instrs fun _ => .keep rfl rfl <| .drop rfl .nil
  | .declare _ _ names, _ => moves_declareCells names
  | .block _ body, h => Stmt.moves_codeAll body (h.within (subset_cons_self _ _))
  | .branch _ cond thenBranch elseBranch, h =>
    have hParts := h.within (subset_cons_self _ _)
    have hThen := hParts.within (subset_append_left _ _)
    have hElse := hParts.within (subset_append_right _ _)
    .branch 0 fun _ hOtherwise => .branch 0 fun _ hDone => .bind (cond.moves_code types) fun _ =>
      .bind (.jumpIfZero (by simp)) fun _ => .bind (thenBranch.moves_code hThen) fun _ =>
        .bind (.jump (by simp)) fun _ => .bind (.label hOtherwise (by simp)) fun _ =>
          .bind (Stmt.moves_codeElse elseBranch hElse) fun _ => .label hDone (by simp)
  | .loop _ cond body, h =>
    have hBody := h.within (subset_cons_self _ _)
    .loopLabels fun _ hCond hExit => .bind (.label hCond (by simp)) fun _ =>
      .bind (cond.moves_code types) fun _ => .bind (.jumpIfZero (by simp)) fun _ =>
        .bind (.enterLoop hCond hExit (by simp)) fun _ => .bind (body.moves_code hBody) fun _ =>
          .bind .exitLoop fun _ => .bind (.jump (by simp)) fun _ => .label hExit (by simp)
  | .ret _ _ none, _ => .throw _
  | .ret _ none (some _), h => .required (moves_return (h _ mem_cons_self _ rfl))
  | .ret _ (some value) (some _), h =>
    .required <| .bind (value.moves_code types) fun _ => .bind (.instrs fun _ => .pop .nil) fun _ =>
      moves_return (h _ mem_cons_self _ rfl)
  | .breakLoop _, _ | .continueLoop _, _ => moves_leaveRound _ _
  | .delete _ target, _ =>
    .bind (target.moves_code types) fun _ => .bind (moves_steps.nullCheck _) fun _ =>
      .bind (moves_steps.dispatch _) fun _ => .instrs fun _ => .keep rfl rfl <| .drop rfl .nil
  | .construct _ _ args _, _ =>
    .bind (moves_steps.require _ _) fun _ => .bind (moves_logic.codeArgs args) fun _ =>
      .bind moves_steps.loadThis fun _ => .instrs fun _ => .keep rfl rfl <| .drop rfl .nil
  | .empty _, _ => .pure ()

theorem Stmt.moves_codeElse {known : List (Label × Nat)} : (stmt : Option Stmt) →
    ReturnTo exits (partsOfElse stmt) → Moves exits known 0 0 (Stmt.codeElse types stmt)
  | none, _ => .pure ()
  | some stmt, h => stmt.moves_code h

theorem Stmt.moves_codeAll {known : List (Label × Nat)} : (body : List Stmt) →
    ReturnTo exits (partsOfAll body) → Moves exits known 0 0 (Stmt.codeAll types body)
  | [], _ => .pure ()
  | stmt :: rest, h =>
    .bind (stmt.moves_code (h.within (subset_append_left _ _))) fun _ =>
      Stmt.moves_codeAll rest (h.within (subset_append_right _ _))

end

end

/-- In every state some depths can be assumed. -/
theorem EmitState.LoopsTaken.exists_charts {s : EmitState} (hs : s.LoopsTaken)
    (exits : String → Prop) : ∃ D, Charts exits D s := by
  classical
  refine ⟨fun l => if s.taken l = 1 ∧ ∀ name, l = .symbol name → exits name then some 0 else none,
    ?_, ?_, ?_⟩
  · intro l n hl
    exact (Option.ite_none_right_eq_some.mp hl).1.1
  · intro name n
    simp [EmitState.taken, eq_comm]
  · intro p hp l hl
    obtain ⟨hNumbered, hTaken⟩ := hs p hp l hl
    refine ⟨hNumbered, if_pos ⟨hTaken, ?_⟩⟩
    rintro name rfl
    exact hNumbered.elim

namespace Levels

variable {exits : String → Prop} {D : Label → Option Nat} {free : Bool} {m : Nat} {t : EmitState}
  {ls : List Line}

/-- Names that are not read as numbered labels keep all labels apart. -/
theorem readsApart (h : Levels D free 0 ls m) (hD : Charts exits D t)
    (hExits : ∀ name, exits name → ∀ l : Label, l.IsNumbered → l.text ≠ name) : ReadsApart ls := by
  intro l hl target label hJump hLabel hText
  obtain ⟨i, hi⟩ := mem_iff_getElem?.mp hl
  obtain ⟨j, hj⟩ := mem_iff_getElem?.mp hLabel
  obtain ⟨d, -, -, hJumps⟩ := h.exists_depth i
  obtain ⟨_, -, hLabels, -⟩ := h.exists_depth j
  have hNumbered := (hLabels label hj).1
  have hTarget := (hJumps l target hi hJump).1
  cases target with
  | branch | loop => exact Label.text_inj hNumbered trivial hText
  | symbol name =>
    have hName := ((hD.exits name d).mp hTarget).1
    exact absurd hText (hExits name hName label hNumbered)

end Levels

/-- The stack along the code of any expression and of any statement. Counted from its first line, the
depth is never negative, a jump is as deep as its label, and the end is one word deeper for an
expression and as deep as the start for a statement. Outside the branches of divisions and
allocations, a statement jumps only where it is as deep as at its start. Labels are told apart by
what they read, too, as long as the names that returns jump to are not those of numbered labels. The
state that is left allows code to follow under the same terms. -/
theorem code_stackDiscipline (types : Registry) (s : EmitState) (hs : s.LoopsTaken) (t : EmitState)
    (ls : List Line) :
    (∀ e : Expr, e.code types s = ⟨(.ok (), t), ls⟩ →
      StackDiscipline ls 1 ∧ ReadsApart ls ∧ t.LoopsTaken) ∧
    ∀ stmt : Stmt, stmt.code types s = ⟨(.ok (), t), ls⟩ → StackDiscipline ls 0 ∧ t.LoopsTaken ∧
      (∀ i l target, ls[i]? = some l → l.jump? = some target →
        depthAt ls i = 0 ∨ InTemplate ls i target) ∧
      (Stmt.ReturnTo (fun name => ∀ l : Label, l.IsNumbered → l.text ≠ name) stmt.parts →
        ReadsApart ls) := by
  refine ⟨?_, ?_⟩
  · intro e hCode
    obtain ⟨D, hD⟩ := hs.exists_charts fun _ => False
    obtain ⟨D', -, hD', hLevels⟩ :=
      (e.moves_code types : Moves _ [] 0 1 _) s () t ls hCode D hD nofun
    exact ⟨hLevels.stackDiscipline, hLevels.readsApart hD' nofun, hD'.loopsTaken⟩
  · intro stmt hCode
    obtain ⟨D, hD⟩ := hs.exists_charts fun name => ∃ part ∈ stmt.parts, part.exit? = some name
    obtain ⟨D', -, hD', hLevels⟩ :=
      (stmt.moves_code types fun part hPart name hName => ⟨part, hPart, hName⟩ :
        Moves _ [] 0 0 _) s () t ls hCode D hD nofun
    refine ⟨hLevels.stackDiscipline, hD'.loopsTaken, ?_, ?_⟩
    · intro i l target hl hTarget
      obtain ⟨d, hd, -, hJumps⟩ := hLevels.exists_depth i
      rcases (hJumps l target hl hTarget).2 with hFree | hZero | hIn
      · cases hFree
      · exact .inl (by omega)
      · exact .inr hIn
    · intro hExits
      refine hLevels.readsApart hD' ?_
      rintro name ⟨part, hPart, hName⟩
      exact hExits part hPart name hName

/-- A loop that may be left for the one around it, with a division and an allocation that wait on the
stack for each other. -/
def leaving : Stmt :=
  let quotient : Expr := .binary ⟨1, .int⟩ .div (.int ⟨1, .int⟩ 7) (.int ⟨1, .int⟩ 0)
  .block 1 [
    .loop 1 quotient (.branch 2 (.unary ⟨2, .int⟩ .not quotient) (.breakLoop 3)
      (some (.ret 4 (some (.binary ⟨4, .int⟩ .add (.int ⟨4, .int⟩ 1) quotient)) (some "main$exit")))),
    .expr 5 (.new ⟨5, .ofClass ⟨0⟩⟩ "Object" [quotient, quotient] (some ⟨0⟩) (some ⟨0⟩)),
    .continueLoop 6]

def insideLoop : EmitState := { loops := 2, openLoops := [⟨.loop 0, .loop 1⟩] }

theorem code_stackDiscipline_leaving :
    insideLoop.LoopsTaken ∧ ∃ t ls, leaving.code .initial insideLoop = ⟨(.ok (), t), ls⟩ ∧
      StackDiscipline ls 0 ∧
      ∀ i l target, ls[i]? = some l → l.jump? = some target →
        depthAt ls i = 0 ∨ InTemplate ls i target := by
  have hs : insideLoop.LoopsTaken := by
    intro p hp l hl
    obtain rfl := mem_singleton.mp hp
    simp only [mem_cons, not_mem_nil, or_false] at hl
    rcases hl with rfl | rfl
    · exact ⟨trivial, rfl⟩
    · exact ⟨trivial, rfl⟩
  have hOk : (leaving.code .initial insideLoop).value.1.toOption.isSome = true := by decide +kernel
  rcases hCode : leaving.code .initial insideLoop with ⟨⟨outcome, t⟩, ls⟩
  rw [hCode] at hOk
  cases outcome with
  | error => cases hOk
  | ok =>
    obtain ⟨hDiscipline, -, hJumps, -⟩ :=
      (code_stackDiscipline .initial insideLoop hs t ls).2 leaving hCode
    exact ⟨hs, t, ls, rfl, hDiscipline, hJumps⟩

end TLang
