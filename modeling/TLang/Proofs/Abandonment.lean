import TLang.Proofs.Sessions

/-! Loops that are abandoned. A statement that is refused inside loops of its own never leaves them: they
stay open, and later statements find them. So a break without a loop around it is refused just as long as no
statement before it was refused inside a loop. -/
namespace TLang

open Emit List

variable {α β : Type} {types : Registry} {s s' t : EmitState} {leaves leaves' : List LoopExit}
  {lost : EmitState → List LoopLabels}

namespace Emit

variable {x : Emit α} {f : α → Emit β} {a : α} {b : β} {r : Refusal}

theorem value_bind_of_ok (h : (x s).value = (.ok a, s')) : ((x >>= f) s).value = (f a s').value := by
  rw [bind_apply_ok (Logged.ext h rfl : x s = ⟨_, (x s).log⟩)]

theorem value_bind_of_error (h : (x s).value = (.error r, t)) : ((x >>= f) s).value = (.error r, t) := by
  rw [bind_apply_error (Logged.ext h rfl : x s = ⟨_, (x s).log⟩)]

/-- A round is left for the labels of the innermost loop. -/
theorem leaveRound_of_open {labels : LoopLabels} {rest : List LoopLabels} (line : Nat) (exit : LoopExit)
    (h : s.openLoops = labels :: rest) :
    leaveRound line exit s = ⟨(.ok (), s), [.instr (.jump (exit.label labels))]⟩ := by
  obtain ⟨branches, loops, openLoops, inMain⟩ := s
  obtain rfl : openLoops = labels :: rest := h
  cases exit <;> rfl

/-- The step leaves the loops as they are, whether it is granted or refused. -/
def Keeps (x : Emit α) : Prop := ∀ s, (x s).value.2.openLoops = s.openLoops

theorem Keeps.bind (hx : Keeps x) (hf : ∀ a, Keeps (f a)) : Keeps (x >>= f) := by
  intro s
  have hFirst := hx s
  rcases hValue : (x s).value with ⟨r | a, s'⟩
  all_goals rw [hValue] at hFirst
  · rw [value_bind_of_error hValue]
    exact hFirst
  · rw [value_bind_of_ok hValue]
    exact (hf a s').trans hFirst

theorem keeps_steps : StackSteps fun _ _ _ x => Keeps x where
  pure _ _ := rfl
  throw _ _ := rfl
  bind := .bind
  instrs _ _ := rfl
  division _ _ := rfl

theorem keeps_logic {types : Registry} : StackLogic types fun _ _ _ x => Keeps x :=
  keeps_steps.logic (fun _ _ _ _ _ => rfl) fun _ _ _ => rfl

theorem keeps_code (types : Registry) (e : Expr) : Keeps (e.code types) := keeps_logic.code (n := 0) e

/-- A step that is refused leaves these loops open inside those that were open before. One that is granted
leaves the loops as they were, and if it leaves the round of a loop, then one was open. -/
def Abandons (leaves : List LoopExit) (lost : EmitState → List LoopLabels) (x : Emit α) : Prop :=
  ∀ s, (∃ a t, (x s).value = (.ok a, t) ∧ t.openLoops = s.openLoops ∧ lost s = [] ∧
      (s.openLoops = [] → leaves = [])) ∨
    ∃ r t, (x s).value = (.error r, t) ∧ t.openLoops = lost s ++ s.openLoops

/-- The loops that two steps abandon, one after the other. -/
def lostInTurn (x : Emit α) (lost : EmitState → List LoopLabels) (lost' : α → EmitState → List LoopLabels)
    (s : EmitState) : List LoopLabels :=
  match (x s).value with
  | (.error _, _) => lost s
  | (.ok a, s') => lost' a s'

/-- The loops that the body of a loop abandons, and the loop itself. -/
def lostInLoop (labels : LoopLabels) (x : Emit Unit) (lost : EmitState → List LoopLabels) (s : EmitState) :
    List LoopLabels :=
  lostInTurn x (fun s => lost s ++ [labels]) (fun _ _ => []) { s with openLoops := labels :: s.openLoops }

namespace Abandons

theorem of_keeps (h : Keeps x) : Abandons [] (fun _ => []) x := by
  intro s
  have hLoops := h s
  rcases hValue : (x s).value with ⟨r | a, t⟩
  all_goals rw [hValue] at hLoops
  · exact .inr ⟨r, t, rfl, hLoops⟩
  · exact .inl ⟨a, t, rfl, hLoops, rfl, fun _ => rfl⟩

theorem openLoops (h : Abandons leaves lost x) (s : EmitState) :
    (x s).value.2.openLoops = lost s ++ s.openLoops := by
  rcases h s with ⟨a, t, hValue, hLoops, hNone, -⟩ | ⟨r, t, hValue, hLoops⟩
  · rw [hValue, hNone]
    exact hLoops
  · rw [hValue]
    exact hLoops

/-- If the first step is refused, the loops that it leaves open stay open, and the second one does not run. -/
theorem bind {lost' : α → EmitState → List LoopLabels} (hx : Abandons leaves lost x)
    (hf : ∀ a, Abandons leaves' (lost' a) (f a)) :
    Abandons (leaves ++ leaves') (lostInTurn x lost lost') (x >>= f) := by
  intro s
  rcases hx s with ⟨a, s', hValue, hLoops, -, hLeaves⟩ | ⟨r, t, hValue, hLoops⟩
  · simp only [lostInTurn, hValue, value_bind_of_ok hValue, ← hLoops] at hLeaves ⊢
    refine (hf a s').imp_left ?_
    rintro ⟨b, t, hValue', hLoops', hNone, hLeaves'⟩
    exact ⟨b, t, hValue', hLoops', hNone, fun hs => append_eq_nil_iff.mpr ⟨hLeaves hs, hLeaves' hs⟩⟩
  · simp only [lostInTurn, hValue, value_bind_of_error hValue]
    exact .inr ⟨r, t, rfl, hLoops⟩

/-- A round can be left only where a loop is open. -/
theorem leaveRound (line : Nat) (exit : LoopExit) : Abandons leaves (fun _ => []) (leaveRound line exit) := by
  rintro ⟨branches, loops, openLoops, inMain⟩
  cases openLoops with
  | nil => exact .inr ⟨_, _, rfl, rfl⟩
  | cons labels rest =>
    refine .inl ⟨(), _, ?_, rfl, rfl, fun hNone => by cases hNone⟩
    rw [leaveRound_of_open line exit rfl]

variable {x : Emit Unit} (hx : Abandons leaves lost x)

include hx

theorem linesAround (before after : List Line) :
    Abandons leaves lost (do lines before; x; lines after) := by
  intro s
  rcases hx s with ⟨⟨⟩, t, hValue, hOk⟩ | ⟨r, t, hValue, hLoops⟩
  · exact .inl ⟨(), t, value_bind_of_ok (x := x) hValue, hOk⟩
  · exact .inr ⟨r, t, value_bind_of_error (x := x) hValue, hLoops⟩

/-- A loop that is refused inside stays open itself. Its rounds are left inside of it, so nothing is left
outside. -/
theorem loop (labels : LoopLabels) (ls : List Line) :
    Abandons [] (lostInLoop labels x lost) (do enterLoop labels; x; exitLoop; lines ls) := by
  intro s
  rcases hx { s with openLoops := labels :: s.openLoops } with
    ⟨⟨⟩, t, hValue, hLoops, -⟩ | ⟨r, t, hValue, hLoops⟩
  all_goals simp only [lostInLoop, lostInTurn, hValue]
  · refine .inl ⟨(), { t with openLoops := t.openLoops.tail }, value_bind_of_ok (x := x) hValue, ?_⟩
    exact ⟨congrArg List.tail hLoops, trivial, fun _ => trivial⟩
  · refine .inr ⟨r, t, value_bind_of_error (x := x) hValue, ?_⟩
    simpa using hLoops

end Abandons

/-- The code of a branch up to the first statement in it. -/
def branchTest (types : Registry) (cond : Expr) : Emit (Label × Label) := do
  let otherwise ← freshBranch
  let done ← freshBranch
  cond.code types
  jumpIfZero otherwise
  return (otherwise, done)

/-- The code of a loop up to its body. -/
def loopTest (types : Registry) (cond : Expr) : Emit LoopLabels := do
  let labels ← freshLoop
  label labels.cond
  cond.code types
  jumpIfZero labels.exit
  return labels

end Emit

namespace Stmt

theorem code_branch (types : Registry) (line : Nat) (cond : Expr) (thenBranch : Stmt)
    (elseBranch : Option Stmt) : (Stmt.branch line cond thenBranch elseBranch).code types = (do
      let labels ← branchTest types cond
      thenBranch.code types
      lines [.instr (.jump labels.2), .label labels.1]
      codeElse types elseBranch
      lines [.label labels.2]) := by
  simp only [code, branchTest, bind_assoc, pure_bind]
  rfl

theorem code_loop (types : Registry) (line : Nat) (cond : Expr) (body : Stmt) :
    (Stmt.loop line cond body).code types = (do
      let labels ← loopTest types cond
      enterLoop labels
      body.code types
      exitLoop
      lines [.instr (.jump labels.cond), .label labels.exit]) := by
  simp only [code, loopTest, bind_assoc, pure_bind]
  rfl

mutual

/-- The loops of a statement around the part at which its code is refused, innermost first. -/
def abandoned (types : Registry) : Stmt → EmitState → List LoopLabels
  | .block _ body => abandonedOfAll types body
  | .branch _ cond thenBranch elseBranch =>
    lostInTurn (branchTest types cond) (fun _ => []) fun _ =>
      lostInTurn (thenBranch.code types) (thenBranch.abandoned types) fun _ =>
        abandonedOfElse types elseBranch
  | .loop _ cond body =>
    lostInTurn (loopTest types cond) (fun _ => []) fun labels =>
      lostInLoop labels (body.code types) (body.abandoned types)
  | .expr _ _ | .declare _ _ _ | .print _ _ | .ret _ _ _ | .breakLoop _ | .continueLoop _ | .delete _ _
  | .construct _ _ _ _ | .empty _ => fun _ => []

def abandonedOfElse (types : Registry) : Option Stmt → EmitState → List LoopLabels
  | none => fun _ => []
  | some stmt => stmt.abandoned types

def abandonedOfAll (types : Registry) : List Stmt → EmitState → List LoopLabels
  | [] => fun _ => []
  | stmt :: rest => lostInTurn (stmt.code types) (stmt.abandoned types) fun _ => abandonedOfAll types rest

end

variable (types)

mutual

/-- By induction on the statement, the code of every statement abandons the loops around the place where it is
refused. -/
theorem abandons_code : (stmt : Stmt) → Abandons stmt.leaves (stmt.abandoned types) (stmt.code types)
  | .expr _ e | .print _ e | .delete _ e => .of_keeps ((keeps_code types e).bind fun _ _ => rfl)
  | .declare _ _ _ => .of_keeps (by rintro ⟨_, _, _, _ | _⟩ <;> rfl)
  | .block _ body => abandons_codeAll body
  | .branch line cond thenBranch elseBranch => by
    rw [code_branch, abandoned]
    have hTest : Keeps (branchTest types cond) := fun _ => (keeps_code types cond).bind (fun _ _ => rfl) _
    exact (Abandons.of_keeps hTest).bind fun _ => (abandons_code thenBranch).bind
      fun _ => (abandons_codeElse elseBranch).linesAround _ _
  | .loop line cond body => by
    rw [code_loop, abandoned]
    have hTest : Keeps (loopTest types cond) := fun _ => (keeps_code types cond).bind (fun _ _ => rfl) _
    exact (Abandons.of_keeps hTest).bind fun labels => (abandons_code body).loop labels _
  | .ret _ none label => .of_keeps ((keeps_steps.require (n := 0) _ label).bind fun _ _ => rfl)
  | .ret _ (some e) label => .of_keeps ((keeps_steps.require (n := 0) _ label).bind fun _ =>
    (keeps_code types e).bind fun _ _ => rfl)
  | .breakLoop line => .leaveRound line .toEnd
  | .continueLoop line => .leaveRound line .toCondition
  | .construct _ _ args constructor => .of_keeps ((keeps_steps.require (n := 0) _ constructor).bind fun _ =>
    (keeps_logic.codeArgs (n := 0) args).bind fun _ _ => rfl)
  | .empty _ => .of_keeps fun _ => rfl

theorem abandons_codeElse : (stmt : Option Stmt) →
    Abandons (leavesOfElse stmt) (abandonedOfElse types stmt) (codeElse types stmt)
  | none => .of_keeps fun _ => rfl
  | some stmt => abandons_code stmt

theorem abandons_codeAll : (body : List Stmt) →
    Abandons (leavesOfAll body) (abandonedOfAll types body) (codeAll types body)
  | [] => .of_keeps fun _ => rfl
  | stmt :: rest => (abandons_code stmt).bind fun _ => abandons_codeAll rest

end

end Stmt

namespace EmitState

/-- The state after some statements were served, whether they were granted or refused. -/
def served (types : Registry) (s : EmitState) (stmts : List Stmt) : EmitState :=
  stmts.foldl (fun s stmt => (stmt.code types s).value.2) s

/-- The loops that some statements abandon, the last ones first. -/
def abandoned (types : Registry) : EmitState → List Stmt → List LoopLabels
  | _, [] => []
  | s, stmt :: rest => (stmt.code types s).value.2.abandoned types rest ++ stmt.abandoned types s

theorem openLoops_served (types : Registry) (s : EmitState) (stmts : List Stmt) :
    (s.served types stmts).openLoops = s.abandoned types stmts ++ s.openLoops := by
  induction stmts generalizing s with
  | nil => rfl
  | cons stmt rest ih =>
    rw [abandoned, append_assoc, ← (stmt.abandons_code types).openLoops s]
    exact ih _

end EmitState

/-- A statement that is granted leaves the loops as they were. One that is refused leaves its own loops open
around the part at fault. Outside of all loops, rounds cannot be left until a loop is abandoned; then they
are left for the labels of the one abandoned last. -/
theorem loops_abandoned_by_refusals (types : Registry) :
    (∀ (stmt : Stmt) (s t : EmitState), (stmt.code types s).value = (.ok (), t) →
      t.openLoops = s.openLoops) ∧
    (∀ (stmt : Stmt) (s t : EmitState) (r : Refusal), (stmt.code types s).value = (.error r, t) →
      t.openLoops = stmt.abandoned types s ++ s.openLoops) ∧
    ∀ (s : EmitState) (stmts : List Stmt), s.openLoops = [] →
      (s.abandoned types stmts = [] → ∀ stmt : Stmt, stmt.leaves ≠ [] →
        ∃ r t, (stmt.code types (s.served types stmts)).value = (.error r, t)) ∧
      ∀ labels rest, s.abandoned types stmts = labels :: rest → ∀ line,
        (Stmt.breakLoop line).code types (s.served types stmts) =
            ⟨(.ok (), s.served types stmts), [.instr (.jump labels.exit)]⟩ ∧
          (Stmt.continueLoop line).code types (s.served types stmts) =
            ⟨(.ok (), s.served types stmts), [.instr (.jump labels.cond)]⟩ := by
  refine ⟨?_, ?_, ?_⟩
  · intro stmt s t h
    rcases stmt.abandons_code types s with ⟨a, t', hValue, hLoops, -⟩ | ⟨r, t', hValue, -⟩
    · cases hValue.symm.trans h
      exact hLoops
    · cases hValue.symm.trans h
  · intro stmt s t r h
    simpa only [h] using (stmt.abandons_code types).openLoops s
  · intro s stmts hs
    have hLoops := s.openLoops_served types stmts
    rw [hs, append_nil] at hLoops
    refine ⟨?_, ?_⟩
    · intro hNone stmt hLeaves
      rw [hNone] at hLoops
      rcases stmt.abandons_code types (s.served types stmts) with ⟨-, -, -, -, -, hOutside⟩ | hRefused
      · exact absurd (hOutside hLoops) hLeaves
      · obtain ⟨r, t, hValue, -⟩ := hRefused
        exact ⟨r, t, hValue⟩
    · intro labels rest hOpen line
      rw [hOpen] at hLoops
      exact ⟨leaveRound_of_open line .toEnd hLoops, leaveRound_of_open line .toCondition hLoops⟩

theorem loops_abandoned_by_refusals_unfinished :
    (∃ r t, (unfinished.code .initial {}).value = (.error r, t)) ∧
      EmitState.abandoned .initial {} [unfinished] = [⟨.loop 0, .loop 1⟩] ∧
      ((Stmt.breakLoop 3).code .initial (EmitState.served .initial {} [unfinished])).log =
        [.instr (.jump (.loop 1))] := by
  have hOpen : EmitState.abandoned .initial {} [unfinished] = [⟨.loop 0, .loop 1⟩] := rfl
  refine ⟨⟨_, _, rfl⟩, hOpen, ?_⟩
  rw [(((loops_abandoned_by_refusals .initial).2.2 {} [unfinished] rfl).2 _ _ hOpen 3).1]

/-- A statement that is refused inside its loop leaves it open, and the next break is granted. -/
theorem refusal_not_clean : (unfinished.code .initial {}).value.1.toOption = none ∧
      (unfinished.code .initial {}).value.2.openLoops ≠ ({} : EmitState).openLoops ∧
      ((Stmt.breakLoop 3).code .initial (unfinished.code .initial {}).value.2).value.1.toOption = some () := by
  decide

end TLang
