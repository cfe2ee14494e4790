import TLang.Assembly.Line
import TLang.Diagnostic
import TLang.Logged

/-! Producing lines of assembly. A step appends lines, may take fresh labels and enter or leave loops,
and may refuse to go on. What was done before a refusal stays done. -/
namespace TLang

/-- Why no code is generated. -/
inductive Refusal where
  | terminalErrors
  | illTyped (line : Nat)
  | unresolvedVariable (line : Nat) (name : String)
  | unresolvedField (line : Nat) (name : String)
  | unresolvedMethod (line : Nat) (name : String)
  | noSlot (line : Nat)
  | unresolvedNew (line : Nat) (className : String)
  | unresolvedCast (line : Nat) (className : String)
  | unresolvedConstructor (line : Nat)
  | noExitLabel (line : Nat)
  | outsideLoop (line : Nat) (exit : LoopExit)
  | noDestructor (className : String)
  | noObjectRoutines
  | classNotAnalyzed (name : String)
  | methodNotAnalyzed (name : String)
  /-- A reason of a client, in its own words. -/
  | other (text : String)
deriving DecidableEq

namespace Refusal

def message : Refusal → String
  | terminalErrors => "semantic analysis reported terminal errors; refusing to generate code"
  | illTyped line => s!"line {line}: refusing to generate code for an ill-typed expression"
  | unresolvedVariable line name => s!"line {line}: unresolved variable '{name}'"
  | unresolvedField line name => s!"line {line}: unresolved field '{name}'"
  | unresolvedMethod line name => s!"line {line}: unresolved method '{name}'"
  | noSlot line => s!"line {line}: call has no VMT slot"
  | unresolvedNew line className => s!"line {line}: unresolved instantiation of '{className}'"
  | unresolvedCast line className => s!"line {line}: unresolved cast to '{className}'"
  | unresolvedConstructor line => s!"line {line}: unresolved constructor invocation"
  | noExitLabel line => s!"line {line}: return statement has no exit label"
  | outsideLoop line exit => s!"line {line}: {exit.keyword} outside of a loop"
  | noDestructor className => s!"class '{className}' has no destructor"
  | noObjectRoutines => "class Object has no routines"
  | classNotAnalyzed name => s!"class '{name}' was not analyzed"
  | methodNotAnalyzed name => s!"method '{name}' was not analyzed"
  | other text => text

end Refusal

/-- Where the next round of a loop starts and where the loop ends. -/
structure LoopLabels where
  cond : Label
  exit : Label
deriving DecidableEq

/-- What later code depends on. -/
structure EmitState where
  /-- The number of branch labels taken. -/
  branches : Nat := 0
  /-- The number of loop labels taken. -/
  loops : Nat := 0
  /-- The loops entered and not left, innermost first. -/
  openLoops : List LoopLabels := []
  /-- Declarations stand in the main block and need cells of their own. -/
  inMain : Bool := false
deriving DecidableEq

/-- Steps that produce assembly. -/
abbrev Emit := ExceptT Refusal (StateT EmitState (Logged Line))

namespace Emit

variable {α β : Type}

def lines (ls : List Line) : Emit Unit := fun s => ⟨(.ok (), s), ls⟩

def line (l : Line) : Emit Unit := lines [l]

def instrs (is : List Instr) : Emit Unit := lines (is.map .instr)

def label (l : Label) : Emit Unit := line (.label l)

@[simp] theorem lines_apply (ls : List Line) (s : EmitState) : lines ls s = ⟨(.ok (), s), ls⟩ := rfl

@[simp] theorem pure_apply (a : α) (s : EmitState) : (pure a : Emit α) s = ⟨(.ok a, s), []⟩ := rfl

@[simp] theorem throw_apply (e : Refusal) (s : EmitState) :
    (throw e : Emit α) s = ⟨(.error e, s), []⟩ := rfl

/-- A step that succeeds hands its state to the next one, whose lines follow its own. -/
theorem bind_apply_ok {x : Emit α} {s s' : EmitState} {a : α} {before : List Line}
    (hx : x s = ⟨(.ok a, s'), before⟩) (f : α → Emit β) :
    (x >>= f) s = ⟨(f a s').value, before ++ (f a s').log⟩ := by
  change (x s >>= fun y => ExceptT.bindCont f y.1 y.2) = _
  rw [hx]
  rfl

/-- Nothing is done after a refusal. -/
theorem bind_apply_error {x : Emit α} {s s' : EmitState} {e : Refusal} {before : List Line}
    (hx : x s = ⟨(.error e, s'), before⟩) (f : α → Emit β) :
    (x >>= f) s = ⟨(.error e, s'), before⟩ := by
  change (x s >>= fun y => ExceptT.bindCont f y.1 y.2) = _
  rw [hx]
  exact Logged.ext rfl (List.append_nil before)

/-- Two steps succeed together just if each one succeeds, and then their lines are joined. -/
theorem bind_apply_eq_ok_iff {x : Emit α} {f : α → Emit β} {s t : EmitState} {b : β}
    {ls : List Line} :
    (x >>= f) s = ⟨(.ok b, t), ls⟩ ↔
      ∃ a s' before after, x s = ⟨(.ok a, s'), before⟩ ∧ f a s' = ⟨(.ok b, t), after⟩ ∧
        ls = before ++ after := by
  constructor
  · intro h
    rcases hx : x s with ⟨⟨outcome, s'⟩, before⟩
    cases outcome with
    | error e =>
      rw [bind_apply_error hx] at h
      simp at h
    | ok a =>
      rw [bind_apply_ok hx] at h
      rcases hf : f a s' with ⟨result, after⟩
      rw [hf] at h
      simp only [Logged.mk.injEq] at h
      obtain ⟨rfl, rfl⟩ := h
      exact ⟨a, s', before, after, rfl, hf, rfl⟩
  · rintro ⟨a, s', before, after, hx, hf, rfl⟩
    rw [bind_apply_ok hx, hf]

/-- Go on with a value that has to be there. -/
def require (refusal : Refusal) : Option α → Emit α
  | some a => pure a
  | none => throw refusal

/-- A branch label not used before. -/
def freshBranch : Emit Label := do
  let s ← get
  set { s with branches := s.branches + 1 }
  return .branch s.branches

/-- A pair of loop labels not used before. -/
def freshLoop : Emit LoopLabels := do
  let s ← get
  set { s with loops := s.loops + 2 }
  return ⟨.loop s.loops, .loop (s.loops + 1)⟩

def enterLoop (labels : LoopLabels) : Emit Unit :=
  modify fun s => { s with openLoops := labels :: s.openLoops }

def exitLoop : Emit Unit := modify fun s => { s with openLoops := s.openLoops.tail }

/-- The innermost loop. -/
def currentLoop : Emit (Option LoopLabels) := return (← get).openLoops.head?

def setInMain (inMain : Bool) : Emit Unit := modify fun s => { s with inMain }

end Emit

/-- The lines produced so far and the state in which the next step starts. -/
structure Generator where
  lines : List Line := []
  state : EmitState := {}
deriving DecidableEq

namespace Generator

/-- Carry out a step. Its lines and its state are kept whether or not it succeeds. -/
def run {α : Type} (g : Generator) (step : Emit α) : Except Refusal α × Generator :=
  let result := step g.state
  (result.value.1, { lines := g.lines ++ result.log, state := result.value.2 })

end Generator
end TLang
