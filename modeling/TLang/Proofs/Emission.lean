import TLang.Code.Program
import TLang.Proofs.Parts

/-! When code is generated and when it is refused. A step that settles on a verdict either succeeds,
with the loops around it as they were, or is refused for one of the reasons named; the verdict does not
depend on the state of the generator, save that a loop must be open if the code leaves one. -/
namespace TLang
namespace Emit

variable {α β : Type} {inLoop : Bool} {reason : Refusal → Prop} {refused : Bool}

theorem enterLoop_apply (labels : LoopLabels) (s : EmitState) :
    enterLoop labels s = ⟨(.ok (), { s with openLoops := labels :: s.openLoops }), []⟩ := rfl

theorem exitLoop_apply (s : EmitState) :
    exitLoop s = ⟨(.ok (), { s with openLoops := s.openLoops.tail }), []⟩ := rfl

/-- The step is refused, for a reason named, or succeeds, as the verdict says. -/
def Settles (inLoop : Bool) (reason : Refusal → Prop) (refused : Bool) (x : Emit α) : Prop :=
  ∀ s, (inLoop = true → s.openLoops ≠ []) →
    (refused = false ∧ ∃ a t ls, x s = ⟨(.ok a, t), ls⟩ ∧ t.openLoops = s.openLoops) ∨
      (refused = true ∧ ∃ r t ls, x s = ⟨(.error r, t), ls⟩ ∧ reason r)

namespace Settles

theorem mono {reason' : Refusal → Prop} {x : Emit α} (h : Settles inLoop reason refused x)
    (hReason : ∀ r, reason r → reason' r) : Settles inLoop reason' refused x := by
  intro s hs
  rcases h s hs with hOk | ⟨hRefused, r, t, ls, hx, hr⟩
  · exact .inl hOk
  · exact .inr ⟨hRefused, r, t, ls, hx, hReason r hr⟩

/-- Two steps are refused together if either one is. -/
theorem bind {refused' : Bool} {x : Emit α} {f : α → Emit β} (hx : Settles inLoop reason refused x)
    (hf : ∀ a, Settles inLoop reason refused' (f a)) :
    Settles inLoop reason (refused || refused') (x >>= f) := by
  intro s hs
  rcases hx s hs with ⟨rfl, a, t, ls, hOk, hLoops⟩ | ⟨rfl, r, t, ls, hError, hr⟩
  · rw [bind_apply_ok hOk]
    rcases hf a t (by rwa [hLoops]) with ⟨rfl, b, t', ls', hOk', hLoops'⟩ | ⟨rfl, r, t', ls', hError', hr⟩
    · exact .inl ⟨rfl, b, t', ls ++ ls', by rw [hOk'], hLoops'.trans hLoops⟩
    · exact .inr ⟨rfl, r, t', ls ++ ls', by rw [hError'], hr⟩
  · exact .inr ⟨rfl, r, t, ls, bind_apply_error hError f, hr⟩

/-- Nothing after a refusal matters. -/
theorem stop {x : Emit α} {f : α → Emit β} (hx : Settles inLoop reason true x) :
    Settles inLoop reason true (x >>= f) := by
  intro s hs
  rcases hx s hs with ⟨hAccepted, -⟩ | ⟨-, r, t, ls, hError, hr⟩
  · cases hAccepted
  · exact .inr ⟨rfl, r, t, ls, bind_apply_error hError f, hr⟩

/-- What is sure to succeed leaves the verdict to what follows it. -/
theorem after {x : Emit α} {f : α → Emit β} (hx : Settles inLoop reason false x)
    (hf : ∀ a, Settles inLoop reason refused (f a)) : Settles inLoop reason refused (x >>= f) :=
  bind hx hf

/-- What is sure to succeed leaves the verdict to what precedes it. -/
theorem before {x : Emit α} {f : α → Emit β} (hx : Settles inLoop reason refused x)
    (hf : ∀ a, Settles inLoop reason false (f a)) : Settles inLoop reason refused (x >>= f) :=
  Bool.or_false refused ▸ bind hx hf

theorem pure (a : α) : Settles inLoop reason false (Pure.pure a) :=
  fun s _ => .inl ⟨rfl, a, s, [], rfl, rfl⟩

theorem lines (ls : List Line) : Settles inLoop reason false (lines ls) :=
  fun s _ => .inl ⟨rfl, (), s, ls, rfl, rfl⟩

theorem instrs (is : List Instr) : Settles inLoop reason false (instrs is) := lines _

theorem label (l : Label) : Settles inLoop reason false (label l) := lines _

theorem freshBranch : Settles inLoop reason false freshBranch :=
  fun s _ => .inl ⟨rfl, .branch s.branches, { s with branches := s.branches + 1 }, [], rfl, rfl⟩

theorem freshLoop : Settles inLoop reason false freshLoop :=
  fun s _ => .inl ⟨rfl, ⟨.loop s.loops, .loop (s.loops + 1)⟩, { s with loops := s.loops + 2 }, [],
    rfl, rfl⟩

theorem setInMain (inMain : Bool) : Settles inLoop reason false (setInMain inMain) :=
  fun s _ => .inl ⟨rfl, (), { s with inMain }, [], rfl, rfl⟩

theorem require {refusal : Refusal} {a : α} {f : α → Emit β}
    (h : Settles inLoop reason refused (f a)) :
    Settles inLoop reason refused (require refusal (some a) >>= f) := h

theorem throw {refusal : Refusal} (h : reason refusal) :
    Settles inLoop reason true (throw refusal : Emit α) :=
  fun s _ => .inr ⟨rfl, refusal, s, [], rfl, h⟩

theorem forM {f : α → Emit Unit} (as : List α) (h : ∀ a ∈ as, Settles inLoop reason false (f a)) :
    Settles inLoop reason false (as.forM f) := by
  induction as with
  | nil => exact pure ()
  | cons a as ih =>
    exact after (h a (by simp)) fun _ => ih fun a' ha' => h a' (by simp [ha'])

/-- The body of a loop may leave it; what follows the loop is back in the loops around it. -/
theorem loop {refused' : Bool} {labels : LoopLabels} {x : Emit Unit} {f : Unit → Emit β}
    (hx : Settles true reason refused x) (hf : ∀ a, Settles inLoop reason refused' (f a)) :
    Settles inLoop reason (refused || refused') (do
      enterLoop labels
      x
      exitLoop
      f ()) := by
  intro s hs
  rw [bind_apply_ok (enterLoop_apply labels s)]
  rcases hx { s with openLoops := labels :: s.openLoops } (by simp) with
    ⟨rfl, ⟨⟩, t, ls, hOk, hLoops⟩ | ⟨rfl, r, t, ls, hError, hr⟩
  · have hExit : exitLoop t = ⟨(.ok (), { t with openLoops := s.openLoops }), []⟩ := by
      rw [exitLoop_apply, hLoops]
      rfl
    rw [bind_apply_ok hOk, bind_apply_ok hExit]
    rcases hf () { t with openLoops := s.openLoops } hs with
      ⟨rfl, b, t', ls', hOk', hLoops'⟩ | ⟨rfl, r, t', ls', hError', hr⟩
    · exact .inl ⟨rfl, b, t', ls ++ ls', by rw [hOk']; rfl, hLoops'⟩
    · exact .inr ⟨rfl, r, t', ls ++ ls', by rw [hError']; rfl, hr⟩
  · exact .inr ⟨rfl, r, t, ls, by rw [bind_apply_error hError]; rfl, hr⟩

end Settles

theorem settles_applyBinary (line : Nat) (op : BinaryOp) :
    Settles inLoop reason false (applyBinary line op) := by
  cases op with
  | div =>
    exact .after .freshBranch fun _ => .after .freshBranch fun _ => .after (.instrs _) fun _ =>
      .after (.label _) fun _ => .after (.instrs _) fun _ => .label _
  | add | sub | mul | eq | lt | gt => exact .instrs _

theorem settles_allocation (types : Registry) (line : Nat) (c : ClassId) (constructor : MethodId)
    (args : Nat) : Settles inLoop reason false (allocation types line c constructor args) := by
  refine .after (.instrs _) fun _ => .after ?_ fun _ => .after (.instrs _) fun _ => ?_
  · exact .after .freshBranch fun _ => .after (.instrs _) fun _ => .label _
  · exact iteInduction (fun _ => .after (.instrs _) fun _ => .instrs _) fun _ => .instrs _

theorem settles_jumpIfZero (target : Label) :
    Settles inLoop reason false (jumpIfZero target) := .instrs _

/-- Inside a loop there is a round to leave. -/
theorem settles_leaveRound (line : Nat) (exit : LoopExit) :
    Settles true reason false (leaveRound line exit) := by
  intro s hs
  obtain ⟨labels, outer, hLoops⟩ := List.exists_cons_of_ne_nil (hs rfl)
  have hCurrent : currentLoop s = ⟨(.ok (some labels), s), []⟩ := by
    change (⟨(.ok s.openLoops.head?, s), []⟩ : Logged Line (Except Refusal _ × EmitState)) = _
    rw [hLoops]
    rfl
  rw [leaveRound, bind_apply_ok hCurrent]
  cases exit with
  | toEnd => exact .inl ⟨rfl, (), s, _, rfl, rfl⟩
  | toCondition => exact .inl ⟨rfl, (), s, _, rfl, rfl⟩

theorem settles_declareCells (names : List String) :
    Settles inLoop reason false (declareCells names) := by
  refine .after (α := EmitState) (fun s _ => .inl ⟨rfl, s, s, [], rfl, rfl⟩) fun s => ?_
  exact iteInduction (fun _ => .lines _) fun _ => .pure ()

end Emit
end TLang
