import TLang.Proofs.Control.Constructs

/-! The code of a structured statement does what the semantics says, wherever it stands. The induction is
over the execution, since a loop is executed again from its own first line. -/
namespace TLang

open Machine Instr Emit List

variable {stmt : Stmt} {inLoop : Bool} {reason : Refusal → Prop}

namespace Stmt

variable {host : Host} {xs : List Variable} {words : Nat} {types : Registry} {σ σ₁ : Store}
  {ending : Ending} {events : List Event}

/-- The code of a structured statement carries out each of its executions. -/
theorem Runs.carries (hRuns : stmt.Runs σ ending events σ₁) (hStructured : stmt.Structured inLoop)
    (hFits : FitIn xs words stmt.parts) : Carries host xs words (stmt.code types) σ ending events σ₁ := by
  induction hRuns generalizing inLoop with
  | expr hEval =>
    cases hStructured with
    | expr _ h => exact carries_expr h (hFits.own (by simp [operands])) hEval
  | print hEval =>
    cases hStructured with
    | print _ h => exact carries_print h (hFits.own (by simp [operands])) hEval
  | declare => exact .declareCells _
  | empty => exact .pure
  | blockEnd => exact .pure
  | @blockNext line s rest _ _ _ _ _ _ _ _ ihFirst ihRest =>
    cases hStructured with
    | block _ h =>
      obtain ⟨hFirst, hRest⟩ := forall_mem_cons.mp h
      exact .seq (s.places_code types) (ihFirst hFirst hFits.tail.1)
        (ihRest (.block line hRest) hFits.tail.2)
  | @blockLeave _ s _ _ _ _ _ _ hEnding ihFirst =>
    cases hStructured with
    | block _ h =>
      have hFirst := (forall_mem_cons.mp h).1
      exact .leave (s.places_code types) (ihFirst hFirst hFits.tail.1) hEnding
  | branchThen hCond hTrue _ ih =>
    cases hStructured with
    | branch _ h hThen hElse =>
      exact carries_branch h (hFits.own (by simp [operands])) hCond
        (fun _ => ih hThen hFits.branches.1) fun hFalse => absurd hFalse hTrue
  | branchElse hCond hFalse _ ih =>
    cases hStructured with
    | branch _ h hThen hElse =>
      exact carries_branch h (hFits.own (by simp [operands])) hCond
        (fun hTrue => absurd hFalse hTrue) fun _ => ih (hElse _ rfl) hFits.branches.2
  | branchSkip hCond hFalse =>
    cases hStructured with
    | branch _ h hThen hElse =>
      rw [← append_nil (Evaluated.events _)]
      exact carries_branch h (hFits.own (by simp [operands])) hCond
        (fun hTrue => absurd hFalse hTrue) fun _ => .pure
  | loopEnd hCond hFalse =>
    cases hStructured with
    | loop _ h hBody => exact carries_loop_end h (hFits.own (by simp [operands])) hCond hFalse
  | loopRound hCond hTrue _ hRound _ ihBody ihLoop =>
    have hLoop := ihLoop hStructured hFits
    cases hStructured with
    | loop _ h hBody =>
      exact carries_loop_round h (hFits.own (by simp [operands])) hCond hTrue
        (ihBody hBody hFits.body) hRound hLoop
  | loopBreak hCond hTrue _ ih =>
    cases hStructured with
    | loop _ h hBody =>
      exact carries_loop_break h (hFits.own (by simp [operands])) hCond hTrue
        (ih hBody hFits.body)
  | loopReturn hCond hTrue _ ih =>
    cases hStructured with
    | loop _ h hBody =>
      exact carries_loop_return h (hFits.own (by simp [operands])) hCond hTrue
        (ih hBody hFits.body)
  | breakLoop => exact .leaveRound _ .toEnd
  | continueLoop => exact .leaveRound _ .toCondition
  | ret hEval =>
    cases hStructured with
    | ret _ _ h => exact carries_ret h (hFits.own (by simp [operands])) hEval

/-- Code is generated for an arithmetic expression. -/
theorem settles_arithmetic {e : Expr} (h : e.Arithmetic) (types : Registry) :
    Settles inLoop reason false (e.code types) := by
  intro s _
  obtain ⟨_, hPerforms, -⟩ := h.exists_computes Expr.Arithmetic.plainHost types (List.Subset.refl _)
  obtain ⟨t, ls, hCode, -⟩ := hPerforms s
  exact .inl ⟨rfl, (), t, ls, hCode, (e.places_code types s () t ls hCode).loops⟩

/-- Code is generated for a structured statement. -/
theorem Structured.settles (h : stmt.Structured inLoop) (types : Registry) :
    Settles inLoop reason false (stmt.code types) := by
  induction h with
  | expr _ h | print _ h => exact .before (settles_arithmetic h types) fun _ => .instrs _
  | declare => exact settles_declareCells _
  | empty => exact .pure ()
  | @block inLoop _ body _ ih =>
    have hAll : ∀ ss : List Stmt, (∀ s ∈ ss, Settles inLoop reason false (s.code types)) →
        Settles inLoop reason false (codeAll types ss) := by
      intro ss hss
      induction ss with
      | nil => exact .pure ()
      | cons s rest ihRest =>
        obtain ⟨hFirst, hRest⟩ := forall_mem_cons.mp hss
        exact .after hFirst fun _ => ihRest hRest
    exact hAll body ih
  | @branch _ _ _ _ elseBranch hCond _ _ ihThen ihElse =>
    refine .after .freshBranch fun _ => .after .freshBranch fun _ => ?_
    refine .after (settles_arithmetic hCond types) fun _ => .after (settles_jumpIfZero _) fun _ => ?_
    refine .after ihThen fun _ => .after (.instrs _) fun _ => .after (.label _) fun _ => ?_
    refine .before ?_ fun _ => .label _
    cases elseBranch with
    | none => exact .pure ()
    | some s => exact ihElse s rfl
  | loop _ hCond _ ih =>
    refine .after .freshLoop fun _ => .after (.label _) fun _ => ?_
    refine .after (settles_arithmetic hCond types) fun _ => .after (settles_jumpIfZero _) fun _ => ?_
    exact .loop ih fun _ => .after (.instrs _) fun _ => .label _
  | breakLoop => exact settles_leaveRound _ .toEnd
  | continueLoop => exact settles_leaveRound _ .toCondition
  | ret _ _ h =>
    refine .require ?_
    exact .before (settles_arithmetic h types) fun _ => .after (.instrs _) fun _ => .instrs _

/-- Code is generated for a structured statement, and it follows the semantics. From its first line on,
whenever the semantics gives the statement an ending, execution gets to the line behind the code, to
the exit of the innermost loop around it, to the condition of that loop, or to the label of the return
with its value in `%eax`. The variables are as in the final store, the integers printed and the
divisions by zero have shown in order, the stack and the frame are as they were, and no other byte
above the stack has changed. -/
theorem Structured.code_runs (host : Host) (types : Registry) {stmt : Stmt} {inLoop : Bool}
    (h : stmt.Structured inLoop) (s : EmitState) (hLoops : inLoop = true → s.openLoops ≠ []) :
    ∃ t ls, stmt.code types s = ⟨(.ok (), t), ls⟩ ∧ ∀ before after, s.Free before → ∀ m ending events σ,
        Room host stmt.accessed stmt.stackWords m.view →
        stmt.Runs (m.view.cells host) ending events σ →
        ∀ stop, ending.target (before ++ ls ++ after) s.openLoops (before ++ ls).length = some stop →
          ∃ m', Config.Reaches host (before ++ ls ++ after) ⟨before.length, m⟩ ⟨stop, m'⟩ ∧
            Ran host stmt.accessed stmt.stackWords m.view events σ m'.view ∧ ending.HandsOver m' := by
  rcases (h.settles types : Settles _ (fun _ => False) _ _) s hLoops with
    ⟨-, ⟨⟩, t, ls, hCode, -⟩ | ⟨hRefused, -⟩
  · refine ⟨t, ls, hCode, ?_⟩
    intro before after hFree m ending events σ hRoom hRuns stop hStop
    have hStands : Stands [] (stmt.code types) s t (before ++ ls ++ after) before ls after :=
      ⟨⟨(), hCode⟩, rfl, hFree, nofun⟩
    exact hRuns.carries h stmt.fitIn_parts s t _ before ls after hStands m hRoom (fun _ _ => rfl) stop
      hStop
  · cases hRefused

/-- A loop that goes on early in its first round and leaves an inner loop in its second one, between
an assignment and a return. -/
def counting : Stmt :=
  let x (line : Nat) : Expr := .var ⟨line, .address⟩ "x" (some .mainVar)
  let set (line : Nat) (e : Expr) : Stmt := .expr line (.assign ⟨line, .int⟩ (x line) e)
  let get (line : Nat) : Expr := .deref ⟨line, .int⟩ (x line)
  let int (line : Nat) (value : Int32) : Expr := .int ⟨line, .int⟩ value
  .block 1 [
    set 1 (int 1 0),
    .loop 2 (.binary ⟨2, .int⟩ .lt (get 2) (int 2 2)) (.block 2 [
      set 3 (.binary ⟨3, .int⟩ .add (get 3) (int 3 1)),
      .branch 4 (.binary ⟨4, .int⟩ .eq (get 4) (int 4 1)) (.continueLoop 4) none,
      .print 5 (get 5),
      .loop 6 (int 6 1) (.breakLoop 6)]),
    .ret 7 (some (get 7)) (some "main$exit")]

theorem structured_counting : counting.Structured false := by
  refine .block 1 (forall_mem_cons.mpr ⟨.expr 1 (.assign 1 1 rfl (.int 1 0)),
    forall_mem_cons.mpr ⟨.loop 2 (.binary 2 .lt (.read 2 2 rfl) (.int 2 2)) ?_,
      forall_mem_singleton.mpr (.ret 7 _ (.read 7 7 rfl))⟩⟩)
  exact .block 2 (forall_mem_cons.mpr
    ⟨.expr 3 (.assign 3 3 rfl (.binary 3 .add (.read 3 3 rfl) (.int 3 1))), forall_mem_cons.mpr
        ⟨.branch 4 (.binary 4 .eq (.read 4 4 rfl) (.int 4 1)) (.continueLoop 4) nofun,
          forall_mem_cons.mpr ⟨.print 5 (.read 5 5 rfl),
            forall_mem_singleton.mpr (.loop 6 (.int 6 1) (.breakLoop 6))⟩⟩⟩)

/-- From any store, `2` is printed and returned. -/
theorem runs_counting (σ : Store) : counting.Runs σ (.returned "main$exit" 2) [.printed 2]
      (((σ.assign (.main "x") 0).assign (.main "x") 1).assign (.main "x") 2) := by
  have hOne : (1 : Int32) ≠ 0 := by decide
  let σ₁ := σ.assign (.main "x") 0
  let σ₂ := σ₁.assign (.main "x") 1
  let σ₃ := σ₂.assign (.main "x") 2
  -- The events are put together by the rules and are those claimed once all lists are joined.
  obtain ⟨events, hRuns, rfl⟩ :
      ∃ events, counting.Runs σ (.returned "main$exit" 2) events σ₃ ∧ events = [.printed 2] :=
    ⟨_, .blockNext (.expr (r := ⟨0, σ₁, []⟩) rfl) (.blockNext
      (.loopRound (r := ⟨1, σ₁, []⟩) rfl hOne
        (.blockNext (.expr (r := ⟨1, σ₂, []⟩) rfl)
          (.blockLeave (.branchThen (r := ⟨1, σ₂, []⟩) rfl hOne .continueLoop) nofun)) rfl
        (.loopRound (r := ⟨1, σ₂, []⟩) rfl hOne
          (.blockNext (.expr (r := ⟨2, σ₃, []⟩) rfl)
            (.blockNext (.branchSkip (r := ⟨0, σ₃, []⟩) rfl rfl)
              (.blockNext (.print (r := ⟨2, σ₃, []⟩) rfl)
                (.blockNext (.loopBreak (r := ⟨1, σ₃, []⟩) rfl hOne .breakLoop) .blockEnd)))) rfl
          (.loopEnd (r := ⟨0, σ₃, []⟩) rfl rfl)))
      (.blockLeave (.ret (r := ⟨2, σ₃, []⟩) rfl) nofun)), rfl⟩
  exact hRuns

open Expr.Arithmetic in
/-- The only cell that is used is far from the stack of the empty machine. -/
theorem room_counting : Room plainHost counting.accessed counting.stackWords emptyMachine.view := by
  have hVariables : ∀ x ∈ counting.accessed, x = .main "x" := by decide
  refine ⟨by decide, ?_, ?_⟩
  · intro x hx y hy hNe
    exact absurd ((hVariables x hx).trans (hVariables y hy).symm) hNe
  · intro x hx a ha hBelow
    cases hVariables x hx
    change (a - 0x2000#32).toNat < 4 at ha
    change (0x7000#32 - 1 - a).toNat < 4 * 3 at hBelow
    bv_omega

open Expr.Arithmetic in
theorem code_runs_counting : counting.Structured false ∧
    Room plainHost counting.accessed counting.stackWords emptyMachine.view ∧
    ∃ t ls m', counting.code .initial {} = ⟨(.ok (), t), ls⟩ ∧
      Config.Reaches plainHost (ls ++ [.label (.symbol "main$exit")]) ⟨0, emptyMachine⟩
        ⟨ls.length, m'⟩ ∧
      m'.calls = [(.outputInteger, 2)] ∧ m'.regs .eax = 2 ∧
      m'.view.cells plainHost (.main "x") = 2 := by
  obtain ⟨t, ls, hCode, hRun⟩ :=
    structured_counting.code_runs plainHost .initial {} (by rintro ⟨⟩)
  have hExit : Line.label (.symbol "main$exit") ∉ ls :=
    (counting.places_code .initial {} () t ls hCode).not_mem rfl
  obtain ⟨m', hReaches, hRan, hOver⟩ := hRun [] [.label (.symbol "main$exit")]
    (fun _ _ => not_mem_nil) emptyMachine _ _ _ room_counting (runs_counting _) ls.length
    (findIdx?_label hExit [])
  refine ⟨structured_counting, room_counting, t, ls, m', hCode, hReaches, ?_, hOver, ?_⟩
  · exact hRan.calls
  · exact hRan.cells _ (by decide)

end Stmt
end TLang
