import TLang.Proofs.Emission
import TLang.Proofs.Stack.Logic

/-! Numbered labels in generated code. A step that takes a label places it exactly once, and places no
label that was taken before it started; if it is refused, it may not come to place all labels it took.
While only part of a step has been looked at, the labels that are still to be placed are held in the order
in which they will be. -/
namespace TLang

open List

variable {l : Label} {labels : LoopLabels} {ls : List Line}

def Label.IsNumbered : Label → Prop
  | branch _ | loop _ => True
  | symbol _ => False

/-- One for a label that will not be handed out any more, and zero for one that may be. -/
def EmitState.taken (s : EmitState) : Label → Nat
  | .branch n => if n < s.branches then 1 else 0
  | .loop n => if n < s.loops then 1 else 0
  | .symbol _ => 1

theorem EmitState.taken_le_one (s : EmitState) (l : Label) : s.taken l ≤ 1 := by
  cases l with
  | symbol => exact Nat.le_refl _
  | branch | loop =>
    simp only [taken]
    split <;> omega

/-- The second state is the first one after a numbered label was handed out. -/
structure EmitState.Takes (s : EmitState) (l : Label) (t : EmitState) : Prop where
  numbered : l.IsNumbered
  loops : t.openLoops = s.openLoops
  taken : ∀ l', t.taken l' = s.taken l' + [l].count l'

theorem EmitState.takes_branch (s : EmitState) :
    s.Takes (.branch s.branches) { s with branches := s.branches + 1 } where
  numbered := trivial
  loops := rfl
  taken l' := by
    cases l' with
    | loop | symbol => simp [taken]
    | branch n =>
      simp only [taken, count_singleton, beq_iff_eq, Label.branch.injEq]
      split <;> split <;> split <;> omega

theorem EmitState.takes_loop (s : EmitState) :
    s.Takes (.loop s.loops) { s with loops := s.loops + 1 } where
  numbered := trivial
  loops := rfl
  taken l' := by
    cases l' with
    | branch | symbol => simp [taken]
    | loop n =>
      simp only [taken, count_singleton, beq_iff_eq, Label.loop.injEq]
      split <;> split <;> split <;> omega

/-- The lines define none of the labels that may still be handed out. -/
def EmitState.Free (s : EmitState) (ls : List Line) : Prop :=
  ∀ l, s.taken l = 0 → Line.label l ∉ ls

/-- The lines produced between two states define the labels held and those taken on the way, each of
them once, and leave the loops as they were. -/
structure Placement (held : List Label) (s t : EmitState) (ls : List Line) : Prop where
  loops : t.openLoops = s.openLoops
  grows : ∀ l, s.taken l ≤ t.taken l
  count : ∀ l, ls.count (.label l) + s.taken l = held.count l + t.taken l

/-- Of the labels in question the lines define some that are held or taken on the way, and none of them
twice. -/
structure Numbering (which : Label → Prop) (held : List Label) (s t : EmitState) (ls : List Line) : Prop where
  grows : ∀ l, s.taken l ≤ t.taken l
  count_le : ∀ l, which l → ls.count (.label l) + s.taken l ≤ held.count l + t.taken l

/-- The label of a loop at which execution goes on when a round is left. -/
def LoopExit.label (labels : LoopLabels) : LoopExit → Label
  | toEnd => labels.exit
  | toCondition => labels.cond

namespace Placement

variable {held : List Label} {s s' t : EmitState} {first rest : List Line}

theorem refl (s : EmitState) : Placement [] s s [] where
  loops := rfl
  grows _ := Nat.le_refl _
  count _ := rfl

/-- Code that leaves no label open may be followed by any other code. The labels of both parts are different,
since numbers only grow. -/
theorem append (h : Placement [] s s' first) (h' : Placement held s' t rest) :
    Placement held s t (first ++ rest) where
  loops := h'.loops.trans h.loops
  grows l := Nat.le_trans (h.grows l) (h'.grows l)
  count l := by
    have hFirst : first.count (.label l) + s.taken l = 0 + s'.taken l := h.count l
    have hRest := h'.count l
    rw [count_append]
    omega

/-- A label that is taken is held from then on. -/
theorem take (hTakes : s.Takes l s') (h : Placement (held ++ [l]) s' t rest) :
    Placement held s t rest where
  loops := h.loops.trans hTakes.loops
  grows l' := by
    have hGrows := h.grows l'
    rw [hTakes.taken] at hGrows
    omega
  count l' := by
    have hCount := h.count l'
    rw [hTakes.taken, count_append] at hCount
    omega

/-- No label defined was taken before. -/
theorem not_mem (h : Placement [] s t rest) (hl : s.taken l = 1) : Line.label l ∉ rest := by
  intro hMem
  have hPos := count_pos_iff.mpr hMem
  have hCount : rest.count (.label l) + s.taken l = 0 + t.taken l := h.count l
  have hLe := t.taken_le_one l
  omega

/-- Behind the lines, too, labels that may still be handed out are not in use. -/
theorem free (h : Placement [] s t rest) (hFirst : s.Free first) : t.Free (first ++ rest) := by
  intro l hl hMem
  have hOld : s.taken l = 0 := Nat.le_zero.mp (hl ▸ h.grows l)
  have hCount : rest.count (.label l) + s.taken l = 0 + t.taken l := h.count l
  rcases mem_append.mp hMem with hMem | hMem
  · exact hFirst l hOld hMem
  · have hPos := count_pos_iff.mpr hMem
    omega

theorem numbering (h : Placement held s t rest) (which : Label → Prop) : Numbering which held s t rest :=
  ⟨h.grows, fun l _ => Nat.le_of_eq (h.count l)⟩

end Placement

namespace Numbering

variable {which : Label → Prop} {held : List Label} {s s' t : EmitState} {first rest : List Line}

theorem refl (held : List Label) (s : EmitState) : Numbering which held s s [] :=
  ⟨fun _ => Nat.le_refl _, fun _ _ => Nat.add_le_add_right (Nat.zero_le _) _⟩

theorem append (h : Numbering which [] s s' first) (h' : Numbering which held s' t rest) :
    Numbering which held s t (first ++ rest) where
  grows l := Nat.le_trans (h.grows l) (h'.grows l)
  count_le l hl := by
    have hFirst : first.count (.label l) + s.taken l ≤ 0 + s'.taken l := h.count_le l hl
    have hRest := h'.count_le l hl
    rw [count_append]
    omega

/-- A label that was reserved counts as held until it is placed. -/
theorem take (hTakes : s.Takes l s') (h : Numbering which (held ++ [l]) s' t rest) :
    Numbering which held s t rest where
  grows l' := by
    have hGrows := h.grows l'
    rw [hTakes.taken] at hGrows
    omega
  count_le l' hl' := by
    have hCount := h.count_le l' hl'
    rw [hTakes.taken, count_append] at hCount
    omega

end Numbering

namespace Emit

variable {α β : Type} {held : List Label} {x : Emit α} {f : α → Emit β}

/-- Whenever the step succeeds, it places the labels held and those it takes. -/
def Places (held : List Label) (x : Emit α) : Prop :=
  ∀ s a t ls, x s = ⟨(.ok a, t), ls⟩ → Placement held s t ls

namespace Places

theorem pure (a : α) : Places [] (Pure.pure a : Emit α) := by
  intro s b t ls h
  cases h
  exact .refl s

theorem throw (refusal : Refusal) : Places held (throw refusal : Emit α) := by
  intro s b t ls h
  cases h

/-- A step that is done with all its labels, in front of one that places those held. -/
theorem after (hx : Places [] x) (hf : ∀ a, Places held (f a)) : Places held (x >>= f) := by
  intro s b t ls h
  obtain ⟨a, s', first, rest, hFirst, hRest, rfl⟩ := bind_apply_eq_ok_iff.mp h
  exact (hx s a s' first hFirst).append (hf a s' b t rest hRest)

theorem instrs (is : List Instr) : Places [] (instrs is) := by
  intro s a t ls h
  cases h
  have hNone : ∀ l, (is.map Line.instr).count (.label l) = 0 := by
    intro l
    rw [count_eq_zero]
    intro hMem
    obtain ⟨i, -, hEq⟩ := mem_map.mp hMem
    cases hEq
  exact ⟨rfl, fun _ => Nat.le_refl _, fun l => by rw [hNone l]; rfl⟩

theorem label (l : Label) : Places [l] (label l) := by
  intro s a t ls h
  cases h
  refine ⟨rfl, fun _ => Nat.le_refl _, ?_⟩
  intro l'
  simp [count_singleton]

/-- The label that is held first is placed. -/
theorem labelled {f : Unit → Emit β} (hf : Places held (f ())) : Places (l :: held) (Emit.label l >>= f) := by
  intro s b t ls h
  obtain ⟨a, s', first, rest, hFirst, hRest, rfl⟩ := bind_apply_eq_ok_iff.mp h
  cases hFirst
  have hPlaced := hf s b t rest hRest
  refine ⟨hPlaced.loops, hPlaced.grows, ?_⟩
  intro l'
  have hCount := hPlaced.count l'
  simp only [singleton_append, count_cons, beq_iff_eq, Line.label.injEq]
  omega

theorem branch {f : Label → Emit β} (hf : ∀ l, Places (held ++ [l]) (f l)) :
    Places held (freshBranch >>= f) :=
  fun s b t ls h => .take s.takes_branch (hf _ _ b t ls h)

theorem loopLabels {f : LoopLabels → Emit β}
    (hf : ∀ p, Places (held ++ [p.cond] ++ [p.exit]) (f p)) : Places held (freshLoop >>= f) :=
  fun s b t ls h => .take s.takes_loop (.take (EmitState.takes_loop _) (hf ⟨_, _⟩ _ b t ls h))

/-- Inside a loop there is one more open loop, and behind it there is not. -/
theorem loop {x : Emit Unit} (hx : Places [] x) (hy : Places held y) : Places held (do
      enterLoop labels
      x
      exitLoop
      y) := by
  intro s b t ls h
  obtain ⟨_, s₁, _, ls₁, hEnter, hBody, rfl⟩ := bind_apply_eq_ok_iff.mp h
  cases hEnter
  obtain ⟨_, s₂, inner, ls₂, hInner, hLeave, rfl⟩ := bind_apply_eq_ok_iff.mp hBody
  obtain ⟨_, s₃, _, rest, hExit, hRest, rfl⟩ := bind_apply_eq_ok_iff.mp hLeave
  cases hExit
  have hPlaced := hx _ _ _ _ hInner
  have hOut : Placement [] s { s₂ with openLoops := s₂.openLoops.tail } inner :=
    ⟨congrArg List.tail hPlaced.loops, hPlaced.grows, hPlaced.count⟩
  exact hOut.append (hy _ _ _ _ hRest)

end Places

/-- Whether or not the step succeeds, it defines none of the labels in question twice, nor one that was
taken before. -/
def Numbers (which : Label → Prop) (held : List Label) (x : Emit α) : Prop :=
  ∀ s outcome t ls, x s = ⟨(outcome, t), ls⟩ → Numbering which held s t ls

namespace Numbers

variable {which : Label → Prop}

theorem mono {fewer : Label → Prop} (h : Numbers which held x) (hFewer : ∀ l, fewer l → which l) :
    Numbers fewer held x := by
  intro s outcome t ls hx
  have hNumbering := h s outcome t ls hx
  exact ⟨hNumbering.grows, fun l hl => hNumbering.count_le l (hFewer l hl)⟩

theorem throw (refusal : Refusal) : Numbers which held (throw refusal : Emit α) := by
  intro s outcome t ls h
  cases h
  exact .refl held s

/-- Numbering composes along the emission of code, provided the first part holds nothing back. -/
theorem after (hx : Numbers which [] x) (hf : ∀ a, Numbers which held (f a)) :
    Numbers which held (x >>= f) := by
  intro s outcome t ls h
  rcases hFirst : x s with ⟨⟨result, s'⟩, first⟩
  have hNumbering := hx s result s' first hFirst
  cases result with
  | error refusal =>
    rw [bind_apply_error hFirst] at h
    cases h
    rw [← append_nil ls]
    exact hNumbering.append (.refl held t)
  | ok a =>
    rw [bind_apply_ok hFirst] at h
    rcases hRest : f a s' with ⟨result, rest⟩
    rw [hRest] at h
    cases h
    exact hNumbering.append (hf a s' outcome t rest hRest)

theorem lines {ls : List Line} (h : ∀ l, which l → .label l ∉ ls) : Numbers which [] (lines ls) := by
  intro s outcome t ls' hEq
  cases hEq
  refine ⟨fun _ => Nat.le_refl _, ?_⟩
  intro l hl
  rw [count_eq_zero.mpr (h l hl)]
  exact Nat.le_refl _

theorem pure (a : α) : Numbers which [] (Pure.pure a : Emit α) := by
  intro s outcome t ls h
  cases h
  exact .refl [] s

/-- Placing a label that is held releases it. It cannot be placed twice, as it is held only once. -/
theorem labelled {f : Unit → Emit β} (hf : Numbers which held (f ())) :
    Numbers which (l :: held) (Emit.label l >>= f) := by
  intro s outcome t ls h
  have hLabel : (Emit.label l : Emit Unit) s = ⟨(.ok (), s), [.label l]⟩ := rfl
  rw [bind_apply_ok hLabel] at h
  rcases hRest : f () s with ⟨result, rest⟩
  rw [hRest] at h
  cases h
  have hNumbering := hf s outcome t rest hRest
  refine ⟨hNumbering.grows, ?_⟩
  intro l' hl'
  have hCount := hNumbering.count_le l' hl'
  simp only [singleton_append, count_cons, beq_iff_eq, Line.label.injEq]
  omega

theorem branch {f : Label → Emit β} (hf : ∀ l, Numbers which (held ++ [l]) (f l)) :
    Numbers which held (freshBranch >>= f) :=
  fun s outcome t ls h => .take s.takes_branch (hf _ _ outcome t ls h)

theorem loopLabels {f : LoopLabels → Emit β}
    (hf : ∀ p, Numbers which (held ++ [p.cond] ++ [p.exit]) (f p)) : Numbers which held (freshLoop >>= f) :=
  fun s outcome t ls h =>
    .take s.takes_loop (.take (EmitState.takes_loop _) (hf ⟨_, _⟩ _ outcome t ls h))

/-- A change of the state in which no label is taken. -/
theorem modify {f : EmitState → EmitState} (hf : ∀ s l, (f s).taken l = s.taken l) :
    Numbers which [] (modify f : Emit Unit) := by
  intro s outcome t ls h
  cases h
  exact ⟨fun l => Nat.le_of_eq (hf s l).symm, fun l _ => by rw [hf]; exact Nat.le_refl _⟩

end Numbers

/-- The step places the labels it takes, and if it is refused it places none of them twice. -/
structure Allots (held : List Label) (x : Emit α) : Prop where
  places : Places held x
  numbers : Numbers (fun _ => True) held x

namespace Allots

/-- What cannot be refused is known if it is known for success. -/
theorem of_lines (h : Places held (lines ls)) : Allots held (lines ls) where
  places := h
  numbers s outcome t ls' hEq := by
    cases hEq
    exact (h s () s ls rfl).numbering _

theorem pure (a : α) : Allots [] (Pure.pure a : Emit α) := ⟨.pure a, .pure a⟩

theorem throw (refusal : Refusal) : Allots held (throw refusal : Emit α) :=
  ⟨.throw refusal, .throw refusal⟩

theorem require (refusal : Refusal) (a : Option α) : Allots [] (require refusal a) := by
  cases a with
  | none => exact throw refusal
  | some a => exact pure a

theorem after (hx : Allots [] x) (hf : ∀ a, Allots held (f a)) : Allots held (x >>= f) :=
  ⟨hx.places.after fun a => (hf a).places, hx.numbers.after fun a => (hf a).numbers⟩

theorem instrs (is : List Instr) : Allots [] (instrs is) := of_lines (Places.instrs is)

theorem label (l : Label) : Allots [l] (label l) := of_lines (Places.label l)

theorem labelled {f : Unit → Emit β} (hf : Allots held (f ())) : Allots (l :: held) (Emit.label l >>= f) :=
  ⟨.labelled hf.places, .labelled hf.numbers⟩

theorem branch {f : Label → Emit β} (hf : ∀ l, Allots (held ++ [l]) (f l)) :
    Allots held (freshBranch >>= f) :=
  ⟨.branch fun l => (hf l).places, .branch fun l => (hf l).numbers⟩

theorem loopLabels {f : LoopLabels → Emit β}
    (hf : ∀ p, Allots (held ++ [p.cond] ++ [p.exit]) (f p)) : Allots held (freshLoop >>= f) :=
  ⟨.loopLabels fun p => (hf p).places, .loopLabels fun p => (hf p).numbers⟩

/-- A loop is entered and left around its body, so its labels are those of the loop in which jumps out of it are
resolved. -/
theorem loop {x : Emit Unit} (hx : Allots [] x) (hy : Allots held y) : Allots held (do
      enterLoop labels
      x
      exitLoop
      y) where
  places := .loop hx.places hy.places
  numbers :=
    (Numbers.modify fun _ l => by cases l <;> rfl).after fun _ => hx.numbers.after fun _ =>
      (Numbers.modify fun _ l => by cases l <;> rfl).after fun _ => hy.numbers

end Allots

theorem allots_steps : StackSteps fun _ _ _ x => Allots [] x where
  pure := .pure
  throw := .throw
  bind := .after
  instrs _ := .instrs _
  division _ := .branch fun _ => .branch fun _ => .after (.instrs _) fun _ => .labelled <|
    .after (.instrs _) fun _ => .label _

theorem allots_logic {types : Registry} : StackLogic types fun _ _ _ x => Allots [] x :=
  allots_steps.logic (fun _ _ _ _ => .instrs _) fun _ _ => .branch fun _ => .after (.instrs _) fun _ => .label _

/-- The lines that reserve cells define no label. -/
theorem allots_declareCells (names : List String) : Allots [] (declareCells names) := by
  have hCells : Allots [] (lines (names.flatMap fun name =>
      [.dataSection, .align, .cell (mainVarLabel name), .textSection])) := by
    refine .of_lines ?_
    intro s a t ls h
    cases h
    refine ⟨rfl, fun _ => Nat.le_refl _, ?_⟩
    intro l
    have hNone : Line.label l ∉ names.flatMap fun name =>
        [.dataSection, .align, .cell (mainVarLabel name), .textSection] := by
      simp
    rw [count_eq_zero.mpr hNone]
    rfl
  have hGet : Allots [] (get : Emit EmitState) := by
    refine ⟨?_, ?_⟩
    · intro s a t ls h
      cases h
      exact .refl s
    · intro s outcome t ls h
      cases h
      exact .refl [] s
  exact .after hGet fun _ => iteInduction (fun _ => hCells) fun _ => .pure ()

/-- A round can be left inside a loop only, by a jump to one of its labels. -/
theorem leaveRound_eq_ok {line : Nat} {exit : LoopExit} {s t : EmitState}
    (h : leaveRound line exit s = ⟨(.ok (), t), ls⟩) :
    ∃ labels rest, s.openLoops = labels :: rest ∧
      instrs [.jump (exit.label labels)] s = ⟨(.ok (), t), ls⟩ := by
  obtain ⟨_, s₁, _, ls₁, hCurrent, hLeave, rfl⟩ := bind_apply_eq_ok_iff.mp h
  cases hCurrent
  cases hLoops : s.openLoops with
  | nil =>
    rw [hLoops] at hLeave
    cases hLeave
  | cons labels rest =>
    rw [hLoops] at hLeave
    refine ⟨labels, rest, rfl, ?_⟩
    cases exit <;> exact hLeave

theorem allots_leaveRound (line : Nat) (exit : LoopExit) : Allots [] (leaveRound line exit) where
  places := by
    intro s a t ls h
    obtain ⟨labels, -, -, hJump⟩ := leaveRound_eq_ok h
    exact Places.instrs _ s () t ls hJump
  numbers := by
    have hCurrent : Numbers (fun _ => True) [] currentLoop := by
      intro s outcome t ls h
      cases h
      exact .refl [] s
    refine hCurrent.after fun _ => (Allots.require _ _).numbers.after fun labels => ?_
    cases exit <;> exact (Allots.instrs _).numbers

end Emit

open Emit

variable (types : Registry)

theorem Expr.allots_code (e : Expr) : Allots [] (e.code types) := allots_logic.code (n := 0) e

theorem Expr.allots_codeArgs (args : List Expr) : Allots [] (Expr.codeArgs types args) :=
  allots_logic.codeArgs (n := 0) args

mutual

/-- The code of a statement places the labels it takes. -/
theorem Stmt.allots_code : (stmt : Stmt) → Allots [] (stmt.code types)
  | .expr _ e | .print _ e => .after (e.allots_code types) fun _ => .instrs _
  | .declare _ _ names => allots_declareCells names
  | .block _ body => Stmt.allots_codeAll body
  | .branch _ cond thenBranch elseBranch =>
    .branch fun _ => .branch fun _ => .after (cond.allots_code types) fun _ =>
      .after (.instrs _) fun _ => .after thenBranch.allots_code fun _ => .after (.instrs _) fun _ =>
        .labelled <| .after (Stmt.allots_codeElse elseBranch) fun _ => .label _
  | .loop _ cond body =>
    .loopLabels fun _ => .labelled <| .after (cond.allots_code types) fun _ =>
      .after (.instrs _) fun _ => .loop body.allots_code <| .after (.instrs _) fun _ => .label _
  | .ret _ none _ => .after (.require _ _) fun _ => .instrs _
  | .ret _ (some value) _ =>
    .after (.require _ _) fun _ => .after (value.allots_code types) fun _ =>
      .after (.instrs _) fun _ => .instrs _
  | .breakLoop _ | .continueLoop _ => allots_leaveRound _ _
  | .delete _ target =>
    .after (target.allots_code types) fun _ => .after (.instrs _) fun _ =>
      .after (.instrs _) fun _ => .instrs _
  | .construct _ _ args _ =>
    .after (.require _ _) fun _ => .after (Expr.allots_codeArgs types args) fun _ =>
      .after (.instrs _) fun _ => .instrs _
  | .empty _ => .pure ()

theorem Stmt.allots_codeElse : (stmt : Option Stmt) → Allots [] (Stmt.codeElse types stmt)
  | none => .pure ()
  | some stmt => stmt.allots_code

theorem Stmt.allots_codeAll : (body : List Stmt) → Allots [] (Stmt.codeAll types body)
  | [] => .pure ()
  | stmt :: rest => .after stmt.allots_code fun _ => Stmt.allots_codeAll rest

end

theorem Expr.places_code (e : Expr) : Places [] (e.code types) := (e.allots_code types).places

theorem Stmt.places_code (stmt : Stmt) : Places [] (stmt.code types) := (stmt.allots_code types).places

theorem Stmt.places_codeAll (body : List Stmt) : Places [] (Stmt.codeAll types body) :=
  (Stmt.allots_codeAll types body).places

end TLang
