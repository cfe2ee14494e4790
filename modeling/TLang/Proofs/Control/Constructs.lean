import Mathlib
import TLang.Proofs.Arithmetic.Preservation
import TLang.Proofs.Control.Cursor
import TLang.Proofs.Control.Semantics

/-! What the code of each statement does when it is executed, given what the code of its parts does. A
statement may stand anywhere in the code of a program; it leads to the line behind it, to a label of
the loop around it, or to the exit of the routine. -/
namespace TLang

open Machine Instr Emit List

variable {s t : EmitState} {before ls after : List Line} {exit : String}

variable {r : Evaluated} {code : List Line} {m : Machine} {e : Expr}

/-- The call of a support routine by which an event shows. -/
def Event.call : Event → SupportRoutine × Word
  | printed value => (.outputInteger, value.toBitVec)
  | zeroDivision line => (.reportDivideByZero, .ofNat 32 line)

section

variable (host : Host) (xs : List Variable) (words : Nat)

/-- The stack is as it was, the variables are as given, and the events have shown. -/
structure Ran (v : View) (events : List Event) (σ : Store) (u : View) : Prop where
  esp : u.esp = v.esp
  ebp : u.ebp = v.ebp
  cells : ∀ x ∈ xs, u.cells host x = σ x
  calls : u.calls = v.calls ++ events.map Event.call
  rest : Untouched host xs words v u

end

variable {host : Host} {xs : List Variable} {words : Nat}

namespace Ran

variable {v u w : View} {first second : List Event} {σ σ' : Store}

theorem refl (hCells : ∀ x ∈ xs, v.cells host x = σ x) : Ran host xs words v [] σ v where
  esp := rfl
  ebp := rfl
  cells := hCells
  calls := (append_nil _).symm
  rest _ _ _ := rfl

/-- Runs follow each other. The events add up, and the cells are those that the second one leaves. -/
theorem trans (h : Ran host xs words v first σ u) (h' : Ran host xs words u second σ' w) :
    Ran host xs words v (first ++ second) σ' w where
  esp := h'.esp.trans h.esp
  ebp := h'.ebp.trans h.ebp
  cells := h'.cells
  calls := by rw [h'.calls, h.calls, map_append, append_assoc]
  rest := by
    intro a hBelow hCells
    rw [← h.rest a hBelow hCells]
    exact h'.rest a (h.esp ▸ hBelow) (h.ebp ▸ hCells)

/-- The room depends on the stack and the frame only. -/
theorem room (h : Ran host xs words v first σ u) (hRoom : Room host xs words v) :
    Room host xs words u where
  fits := hRoom.fits
  apart := h.ebp ▸ hRoom.apart
  clear := by
    rw [h.ebp, h.esp]
    exact hRoom.clear

/-- Output is noted as a call of the host. It changes no cell. -/
theorem printed (h : Ran host xs words v first σ u) (value : Int32) :
    Ran host xs words v (first ++ [.printed value]) σ (u.note value.toBitVec .outputInteger) where
  esp := h.esp
  ebp := h.ebp
  cells := h.cells
  calls := by
    rw [View.note, h.calls, map_append, append_assoc]
    rfl
  rest := h.rest

/-- The run of an expression counts as the run of a statement, its divisions by zero being its events. -/
theorem of_balanced (h : Balanced host xs words v u r.store r.zeroDivisions) :
    Ran host xs words v r.events r.store u where
  esp := h.esp
  ebp := h.ebp
  cells := h.cells
  calls := by
    rw [h.calls, Evaluated.events, map_map]
    rfl
  rest := h.rest

end Ran

namespace Ending

/-- The line at which execution goes on after a statement, with the loops around it. -/
def target (code : List Line) (loops : List LoopLabels) (next : Nat) : Ending → Option Nat
  | normal => some next
  | broke => loops.head?.bind fun labels => code.findIdx? (· == .label labels.exit)
  | continued => loops.head?.bind fun labels => code.findIdx? (· == .label labels.cond)
  | returned exit _ => code.findIdx? (· == .label (.symbol exit))

/-- The line at which execution goes on after the body of a loop from `start` to `stop`. -/
def afterRound (code : List Line) (start stop : Nat) : Ending → Option Nat
  | normal | continued => some start
  | broke => some stop
  | returned exit _ => code.findIdx? (· == .label (.symbol exit))

/-- A value that is returned is in `%eax`. -/
def HandsOver (m : Machine) : Ending → Prop
  | returned _ value => m.regs .eax = value.toBitVec
  | _ => True

end Ending

def LoopExit.ending : LoopExit → Ending
  | toEnd => .broke
  | toCondition => .continued

section

variable (host xs words)

/-- From the line `start` on execution gets to the line `stop`, with all effects as given. -/
def RunsTo (code : List Line) (start stop : Nat) (m : Machine) (ending : Ending)
    (events : List Event) (σ : Store) : Prop :=
  ∃ m', Config.Reaches host code ⟨start, m⟩ ⟨stop, m'⟩ ∧
    Ran host xs words m.view events σ m'.view ∧ ending.HandsOver m'

/-- Wherever the code of the step stands, executing it from the first store on has the effects
given. -/
def Emit.Carries (x : Emit Unit) (σ : Store) (ending : Ending) (events : List Event) (σ' : Store) :
    Prop :=
  ∀ s t code before ls after, Stands [] x s t code before ls after →
    ∀ m, Room host xs words m.view → (∀ x ∈ xs, m.view.cells host x = σ x) →
      ∀ stop, ending.target code s.openLoops (before ++ ls).length = some stop →
        RunsTo host xs words code before.length stop m ending events σ'

end

variable {types : Registry} {σ σ₁ σ₂ : Store} {ending : Ending} {events first second : List Event}

/-- Execution goes on where it got to. -/
theorem RunsTo.trans {start middle stop : Nat} {m₁ : Machine}
    (hReaches : Config.Reaches host code ⟨start, m⟩ ⟨middle, m₁⟩)
    (hRan : Ran host xs words m.view first σ₁ m₁.view)
    (h : RunsTo host xs words code middle stop m₁ ending second σ₂) :
    RunsTo host xs words code start stop m ending (first ++ second) σ₂ := by
  obtain ⟨m₂, hReaches', hRan', hOver⟩ := h
  exact ⟨m₂, hReaches.trans hReaches', hRan.trans hRan', hOver⟩

namespace Emit.Stands

variable {held held' : List Label} {s s' t t' : EmitState} {before ls ls' after after' : List Line}

/-- The code of an arithmetic expression pushes its value. -/
theorem reaches_expr (h : Stands held (e.code types) s t code before ls after) (hArithmetic : e.Arithmetic)
    (hFits : e.accessed ⊆ xs ∧ e.stackWords ≤ words) (hRoom : Room host xs words m.view)
    (hCells : ∀ x ∈ xs, m.view.cells host x = σ x) (hEval : e.eval σ = some r) :
    ∃ m', Config.Reaches host code ⟨before.length, m⟩ ⟨(before ++ ls).length, m'⟩ ∧
      Pushed host xs words m.view r m'.view := by
  obtain ⟨effect, hPerforms, hComputes⟩ := hArithmetic.exists_computes host types hFits.1
  obtain ⟨t', ls', hCode, hFragment⟩ := hPerforms s
  obtain ⟨⟨⟩, hRun⟩ := h.run
  cases hCode.symm.trans hRun
  have hUnused : s.Unused before := by
    intro n hn
    exact h.ahead.free _ (if_neg (Nat.not_lt.mpr hn))
  have hEnds := hFragment.ends before after hUnused m
  have hYields := hComputes words hFits.2 m σ hRoom hCells
  rw [hEval] at hYields
  obtain ⟨m', hOutcome, hPushed⟩ := hYields
  rw [hOutcome, ← h.code] at hEnds
  exact ⟨m', hEnds, hPushed⟩

/-- A condition decides between the next line and a label. -/
theorem reaches_test {cond : Expr} {l : Label} (hCode : Stands held (cond.code types) s t code before ls after)
    (hTest : Stands held' (jumpIfZero l) s' t' code (before ++ ls) ls' after') (hArithmetic : cond.Arithmetic)
    (hFits : cond.accessed ⊆ xs ∧ cond.stackWords ≤ words) (hRoom : Room host xs words m.view)
    (hCells : ∀ x ∈ xs, m.view.cells host x = σ x) (hEval : cond.eval σ = some r) :
    ∃ m', Ran host xs words m.view r.events r.store m'.view ∧
      (r.value = 0 → ∀ position, code.findIdx? (· == .label l) = some position →
        Config.Reaches host code ⟨before.length, m⟩ ⟨position, m'⟩) ∧
      (r.value ≠ 0 →
        Config.Reaches host code ⟨before.length, m⟩ ⟨(before ++ ls ++ ls').length, m'⟩) := by
  obtain ⟨m₁, hReaches, hPushed⟩ := hCode.reaches_expr hArithmetic hFits hRoom hCells hEval
  obtain ⟨m₂, hView, hZero, hNonzero⟩ := hTest.reaches_jumpIfZero host hPushed.value
  refine ⟨m₂, ?_, ?_, ?_⟩
  · rw [hView]
    exact .of_balanced hPushed.drop
  · exact fun hValue position hPosition => hReaches.trans (hZero hValue position hPosition)
  · exact fun hValue => hReaches.trans (hNonzero hValue)

end Emit.Stands

namespace Emit.Carries

variable {x : Emit Unit}

/-- Where a step stands in the code of another one, control may have a way to go behind it. -/
theorem reaches_next (hx : Carries host xs words x σ ending events σ₁) {held : List Label} {next : Nat}
    (hStands : Stands held x s t code before ls after)
    (hNext : ∀ m, Config.Reaches host code ⟨(before ++ ls).length, m⟩ ⟨next, m⟩)
    (hRoom : Room host xs words m.view) (hCells : ∀ x ∈ xs, m.view.cells host x = σ x) (stop : Nat)
    (hStop : ending.target code s.openLoops next = some stop) :
    RunsTo host xs words code before.length stop m ending events σ₁ := by
  have hCarries := hx s t code before ls after hStands.forget m hRoom hCells
  cases ending with
  | normal =>
    cases hStop
    obtain ⟨m', hReaches, hRan, hOver⟩ := hCarries _ rfl
    exact ⟨m', hReaches.trans (hNext m'), hRan, hOver⟩
  | broke | continued | returned => exact hCarries stop hStop

theorem pure : Carries host xs words (Pure.pure ()) σ .normal [] σ := by
  intro s t code before ls after h m hRoom hCells stop hStop
  obtain ⟨⟨⟩, hRun⟩ := h.run
  cases hRun
  cases hStop
  rw [append_nil]
  exact ⟨m, .refl, .refl hCells, trivial⟩

/-- A step that ends normally hands over to the next one. -/
theorem seq {y : Emit Unit} (hPlaces : Places [] x)
    (hx : Carries host xs words x σ .normal first σ₁)
    (hy : Carries host xs words y σ₁ ending second σ₂) :
    Carries host xs words (x >>= fun _ => y) σ ending (first ++ second) σ₂ := by
  intro s t code before ls after h m hRoom hCells stop hStop
  obtain ⟨s', ls₁, ls₂, rfl, hLoops, hFirst, hSecond⟩ := h.bind hPlaces
  obtain ⟨m₁, hReaches, hRan, -⟩ := hx _ _ _ _ _ _ hFirst m hRoom hCells _ rfl
  refine .trans hReaches hRan (hy _ _ _ _ _ _ hSecond m₁ (hRan.room hRoom) hRan.cells stop ?_)
  rw [hLoops, append_assoc]
  exact hStop

/-- After any other ending the next step is left out. -/
theorem leave {f : Unit → Emit Unit} (hPlaces : Places [] x)
    (hx : Carries host xs words x σ ending events σ₁) (hEnding : ending ≠ .normal) :
    Carries host xs words (x >>= f) σ ending events σ₁ := by
  intro s t code before ls after h m hRoom hCells stop hStop
  obtain ⟨s', ls₁, ls₂, rfl, -, hFirst, -⟩ := h.bind hPlaces
  refine hx _ _ _ _ _ _ hFirst m hRoom hCells stop ?_
  cases ending with
  | normal => exact absurd rfl hEnding
  | broke | continued | returned => exact hStop

/-- Instructions behind an expression, which take its value off the stack. -/
theorem expr_instrs {is : List Instr} (hArithmetic : e.Arithmetic)
    (hFits : e.accessed ⊆ xs ∧ e.stackWords ≤ words) (hEval : e.eval σ = some r)
    (hStraight : is.all Instr.isStraight = true)
    (hRun : ∀ (v : View) m, Pushed host xs words v r m.view → ∃ m', execAll host is m = .ok m' ∧
      Ran host xs words v events r.store m'.view) :
    Carries host xs words (do e.code types; instrs is) σ .normal events r.store := by
  intro s t code before ls after h m hRoom hCells stop hStop
  obtain ⟨s', ls₁, ls₂, rfl, -, hFirst, hSecond⟩ := h.bind (e.places_code types)
  obtain ⟨m₁, hReaches, hPushed⟩ := hFirst.reaches_expr hArithmetic hFits hRoom hCells hEval
  obtain ⟨m₂, hExec, hRan⟩ := hRun _ _ hPushed
  have hBehind := hSecond.reaches_instrs hStraight hExec
  cases hStop
  rw [← append_assoc]
  exact ⟨m₂, hReaches.trans hBehind, hRan, trivial⟩

/-- Declarations of variables emit directives only, so nothing runs and the store stays as it is. -/
theorem declareCells (names : List String) :
    Carries host xs words (declareCells names) σ .normal [] σ := by
  intro s t code before ls after h m hRoom hCells stop hStop
  obtain ⟨⟨⟩, hRun⟩ := h.run
  cases hStop
  refine ⟨m, Stands.reaches_idle host m h.code ?_, .refl hCells, trivial⟩
  obtain ⟨_, s', _, rest, hGet, hRest, rfl⟩ := bind_apply_eq_ok_iff.mp hRun
  cases hGet
  split at hRest
  · cases hRest
    intro l hl
    obtain ⟨name, -, hl⟩ :=
      mem_flatMap.mp (mem_append.mp hl |>.resolve_left not_mem_nil)
    simp only [mem_cons, not_mem_nil, or_false] at hl
    rcases hl with rfl | rfl | rfl | rfl <;> exact ⟨rfl, rfl⟩
  · cases hRest
    exact fun l hl => (not_mem_nil hl).elim

/-- A jump out of a round ends it as the loop around expects. Outside of a loop it is refused, which this leaves
out. -/
theorem leaveRound (line : Nat) (exit : LoopExit) :
    Carries host xs words (leaveRound line exit) σ exit.ending [] σ := by
  intro s t code before ls after h m hRoom hCells stop hStop
  obtain ⟨⟨⟩, hRun⟩ := h.run
  obtain ⟨labels, rest, hLoops, hJump⟩ := leaveRound_eq_ok hRun
  have hStands : Stands [] (instrs [.jump (exit.label labels)]) s t code before ls after :=
    ⟨⟨(), hJump⟩, h.code, h.ahead⟩
  rw [hLoops] at hStop
  refine ⟨m, hStands.reaches_jump host m ?_, .refl hCells, ?_⟩
  · cases exit <;> exact hStop
  · cases exit <;> trivial

end Emit.Carries

namespace Stmt

variable {line : Nat} {cond : Expr}

theorem carries_expr (hArithmetic : e.Arithmetic) (hFits : e.accessed ⊆ xs ∧ e.stackWords ≤ words)
    (hEval : e.eval σ = some r) :
    Carries host xs words ((expr line e).code types) σ .normal r.events r.store := by
  refine .expr_instrs hArithmetic hFits hEval rfl fun v m hPushed => ⟨_, rfl, ?_⟩
  exact .of_balanced hPushed.drop

theorem carries_print (hArithmetic : e.Arithmetic) (hFits : e.accessed ⊆ xs ∧ e.stackWords ≤ words)
    (hEval : e.eval σ = some r) :
    Carries host xs words ((print line e).code types) σ .normal (r.events ++ [.printed r.value])
      r.store := by
  refine .expr_instrs hArithmetic hFits hEval rfl fun v m hPushed => ⟨_, rfl, ?_⟩
  rw [read_imm, view_arith_esp, view_support, View.drop_note, hPushed.value]
  exact (Ran.of_balanced hPushed.drop).printed r.value

/-- A return leaves its value and ends at the exit of its method. A return without a value is left out. -/
theorem carries_ret (hArithmetic : e.Arithmetic) (hFits : e.accessed ⊆ xs ∧ e.stackWords ≤ words)
    (hEval : e.eval σ = some r) :
    Carries host xs words ((ret line (some e) (some exit)).code types) σ (.returned exit r.value)
      r.events r.store := by
  intro s t code before ls after h m hRoom hCells stop hStop
  have hStands : Stands [] (do e.code types; instrs [.pop .eax]; instrs [.jump (.symbol exit)])
    s t code before ls after := ⟨h.run, h.code, h.ahead⟩
  obtain ⟨s₁, ls₁, ls₂, rfl, -, hExpr, hRest⟩ := hStands.bind (e.places_code types)
  obtain ⟨s₂, ls₃, ls₄, rfl, -, hPop, hJump⟩ := hRest.bind (.instrs _)
  obtain ⟨m₁, hReaches, hPushed⟩ := hExpr.reaches_expr hArithmetic hFits hRoom hCells hEval
  have hReaches' := hPop.reaches_instrs rfl (show execAll host [.pop .eax] m₁ = .ok _ from rfl)
  refine ⟨m₁.pop .eax, (hReaches.trans hReaches').trans (hJump.reaches_jump host _ hStop), ?_, ?_⟩
  · rw [view_pop _ (by decide) (by decide)]
    exact .of_balanced hPushed.drop
  · rw [Ending.HandsOver, regs_pop, hPushed.value]

/-- A conditional carries out the branch that its condition selects. Of the other branch only its code is asked
for. -/
theorem carries_branch {thenBranch : Stmt} {elseBranch : Option Stmt}
    (hArithmetic : cond.Arithmetic) (hFits : cond.accessed ⊆ xs ∧ cond.stackWords ≤ words)
    (hEval : cond.eval σ = some r)
    (hThen : r.value ≠ 0 → Carries host xs words (thenBranch.code types) r.store ending events σ₁)
    (hElse : r.value = 0 → Carries host xs words (codeElse types elseBranch) r.store ending events σ₁) :
    Carries host xs words ((branch line cond thenBranch elseBranch).code types) σ ending
      (r.events ++ events) σ₁ := by
  intro s t code before ls after h m hRoom hCells stop hStop
  obtain ⟨s₁, condLines, ls₁, rfl, hLoops₁, hCond, h⟩ := h.branches.bind (cond.places_code types)
  obtain ⟨s₂, test, ls₂, rfl, hLoops₂, hTest, h⟩ := h.bind (.instrs _)
  obtain ⟨s₃, thenLines, ls₃, rfl, hLoops₃, hAtThen, h⟩ := h.bind (thenBranch.places_code types)
  obtain ⟨s₄, jump, ls₄, rfl, hLoops₄, hJump, h⟩ := h.bind (.instrs _)
  obtain ⟨ls₅, rfl, hOtherwise, h⟩ :=
    h.bind_label [.branch (s.branches + 1)] (by simp) (by simp) (by simp)
  obtain ⟨s₅, elseLines, ls₆, rfl, hLoops₅, hAtElse, hDone⟩ :=
    h.bind (Stmt.allots_codeElse types elseBranch).places
  have hEnd : ∀ m, Config.Reaches host code _ ⟨_, m⟩ := fun m => hDone.reaches_label host m
  obtain ⟨m₁, hRan, hZero, hNonzero⟩ :=
    hCond.reaches_test hTest hArithmetic hFits hRoom hCells hEval
  simp only [← append_assoc] at hStop hEnd ⊢
  by_cases hValue : r.value = 0
  · have hReaches := hZero hValue _ (hOtherwise.findIdx? (by simp))
    refine .trans (hReaches.trans (hOtherwise.reaches_label host m₁)) hRan ?_
    refine (hElse hValue).reaches_next hAtElse hEnd (hRan.room hRoom) hRan.cells stop ?_
    rw [hLoops₄, hLoops₃, hLoops₂, hLoops₁]
    exact hStop
  · have hSkip := fun m => (hJump.reaches_jump host m (hDone.findIdx? (by simp))).trans (hEnd m)
    refine .trans (hNonzero hValue) hRan ?_
    refine (hThen hValue).reaches_next hAtThen hSkip (hRan.room hRoom) hRan.cells stop ?_
    rw [hLoops₂, hLoops₁]
    exact hStop

/-- One test of the condition of a loop, and one round if it holds. -/
theorem runsTo_round {body : Stmt} (h : Stands [] ((loop line cond body).code types) s t code before ls after)
    (hArithmetic : cond.Arithmetic) (hFits : cond.accessed ⊆ xs ∧ cond.stackWords ≤ words)
    (hRoom : Room host xs words m.view) (hCells : ∀ x ∈ xs, m.view.cells host x = σ x)
    (hEval : cond.eval σ = some r) :
    (r.value = 0 →
      RunsTo host xs words code before.length (before ++ ls).length m .normal r.events r.store) ∧
    (r.value ≠ 0 → ∀ round events σ₁, Carries host xs words (body.code types) r.store round events σ₁ →
        ∀ stop, round.afterRound code before.length (before ++ ls).length = some stop →
          RunsTo host xs words code before.length stop m round (r.events ++ events) σ₁) := by
  obtain ⟨ls₁, rfl, hAgain, h⟩ :=
    h.loopLabels.bind_label [.loop (s.loops + 1)] (by simp) (by simp) (by simp)
  obtain ⟨s₁, condLines, ls₂, rfl, hLoops₁, hCond, h⟩ := h.bind (cond.places_code types)
  obtain ⟨s₂, test, ls₃, rfl, hLoops₂, hTest, h⟩ := h.bind (.instrs _)
  obtain ⟨s₃, bodyLines, ls₄, rfl, hLoops₃, hBody, h⟩ := h.enterLoop.bind (body.places_code types)
  obtain ⟨s₄, jump, ls₅, rfl, hLoops₄, hJump, hExit⟩ := h.exitLoop.bind (.instrs _)
  have hAgainAt := hAgain.findIdx? (by simp)
  have hExitAt := hExit.findIdx? (by simp)
  have hEnd : ∀ m, Config.Reaches host code _ ⟨_, m⟩ := fun m => hExit.reaches_label host m
  obtain ⟨m₁, hRan, hZero, hNonzero⟩ :=
    hCond.reaches_test hTest hArithmetic hFits hRoom hCells hEval
  have hStart := hAgain.reaches_label host m
  simp only [← append_assoc] at hEnd ⊢
  refine ⟨?_, ?_⟩
  · intro hValue
    exact ⟨m₁, (hStart.trans (hZero hValue _ hExitAt)).trans (hEnd m₁), hRan, trivial⟩
  · intro hValue round events σ₁ hRound stop hStop
    have hBack := fun m => hJump.reaches_jump host m hAgainAt
    have hRuns := hRound.reaches_next hBody hBack (hRan.room hRoom) hRan.cells
    refine .trans (hStart.trans (hNonzero hValue)) hRan ?_
    cases round with
    | normal => exact hRuns stop hStop
    | continued => exact hRuns stop (hAgainAt.trans hStop)
    | returned => exact hRuns stop hStop
    | broke =>
      cases hStop
      obtain ⟨m₂, hReaches, hRan', -⟩ := hRuns _ hExitAt
      exact ⟨m₂, hReaches.trans (hEnd m₂), hRan', trivial⟩

variable {body : Stmt} (hArithmetic : cond.Arithmetic)
  (hFits : cond.accessed ⊆ xs ∧ cond.stackWords ≤ words) (hEval : cond.eval σ = some r)

include hArithmetic hFits hEval

theorem carries_loop_end (hFalse : r.value = 0) :
    Carries host xs words ((loop line cond body).code types) σ .normal r.events r.store := by
  intro s t code before ls after h m hRoom hCells stop hStop
  cases hStop
  exact (runsTo_round h hArithmetic hFits hRoom hCells hEval).1 hFalse

/-- A loop that goes on after a round does what it does from there on. -/
theorem carries_loop_round {round : Ending} (hTrue : r.value ≠ 0)
    (hBody : Carries host xs words (body.code types) r.store round first σ₁)
    (hRound : round.staysInLoop = true)
    (hLoop : Carries host xs words ((loop line cond body).code types) σ₁ ending second σ₂) :
    Carries host xs words ((loop line cond body).code types) σ ending
      (r.events ++ first ++ second) σ₂ := by
  intro s t code before ls after h m hRoom hCells stop hStop
  have hAfter : round.afterRound code before.length (before ++ ls).length = some before.length := by
    cases round with
    | normal | continued => rfl
    | broke | returned => cases hRound
  obtain ⟨m₁, hReaches, hRan, -⟩ :=
    (runsTo_round h hArithmetic hFits hRoom hCells hEval).2 hTrue round first σ₁ hBody _ hAfter
  exact .trans hReaches hRan
    (hLoop s t code before ls after h m₁ (hRan.room hRoom) hRan.cells stop hStop)

theorem carries_loop_break (hTrue : r.value ≠ 0)
    (hBody : Carries host xs words (body.code types) r.store .broke events σ₁) :
    Carries host xs words ((loop line cond body).code types) σ .normal (r.events ++ events) σ₁ := by
  intro s t code before ls after h m hRoom hCells stop hStop
  cases hStop
  exact (runsTo_round h hArithmetic hFits hRoom hCells hEval).2 hTrue .broke events σ₁ hBody _ rfl

theorem carries_loop_return {value : Int32} (hTrue : r.value ≠ 0)
    (hBody : Carries host xs words (body.code types) r.store (.returned exit value) events σ₁) :
    Carries host xs words ((loop line cond body).code types) σ (.returned exit value)
      (r.events ++ events) σ₁ := by
  intro s t code before ls after h m hRoom hCells stop hStop
  exact (runsTo_round h hArithmetic hFits hRoom hCells hEval).2 hTrue _ events σ₁ hBody stop hStop

end Stmt
end TLang
