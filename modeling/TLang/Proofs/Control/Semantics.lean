import TLang.Proofs.Arithmetic.Evaluation
import TLang.Proofs.Parts

/-! A reference semantics for statements over integer expressions: prints, blocks, branches, loops that
can be left or continued, and returns. An execution is a finite derivation, so a loop that never ends
has none. -/
namespace TLang

open List

variable {s : Stmt} {line : Nat} {cond : Expr}

/-- What an execution shows to the outside. -/
inductive Event where
  | printed (value : Int32)
  /-- A division by zero on the given line. -/
  | zeroDivision (line : Nat)
deriving DecidableEq

/-- How the execution of a statement ends. -/
inductive Ending where
  | normal
  /-- The innermost loop around the statement is left. -/
  | broke
  /-- The innermost loop around the statement goes on with its next round. -/
  | continued
  /-- The routine is left, through the label of its exit. -/
  | returned (exit : String) (value : Int32)
deriving DecidableEq

/-- After this ending of its body a loop goes on with its next round. -/
def Ending.staysInLoop : Ending → Bool
  | normal | continued => true
  | broke | returned _ _ => false

def Evaluated.events (r : Evaluated) : List Event := r.zeroDivisions.map .zeroDivision

namespace Stmt

/-- From the first store, the statement ends as given, after the events and with the second store. A
condition holds unless it is zero. A declaration gives a variable no value: its cell is there from the
start. -/
inductive Runs : Stmt → Store → Ending → List Event → Store → Prop where
  | expr {line : Nat} {e : Expr} {σ : Store} {r : Evaluated} (hEval : e.eval σ = some r) :
      Runs (.expr line e) σ .normal r.events r.store
  | print {line : Nat} {e : Expr} {σ : Store} {r : Evaluated} (hEval : e.eval σ = some r) :
      Runs (.print line e) σ .normal (r.events ++ [.printed r.value]) r.store
  | declare {line : Nat} {type : TypeName} {names : List String} {σ : Store} :
      Runs (.declare line type names) σ .normal [] σ
  | empty {line : Nat} {σ : Store} : Runs (.empty line) σ .normal [] σ
  | blockEnd {line : Nat} {σ : Store} : Runs (.block line []) σ .normal [] σ
  | blockNext {line : Nat} {s : Stmt} {rest : List Stmt} {σ σ₁ σ₂ : Store} {ending : Ending}
      {first second : List Event} (hFirst : Runs s σ .normal first σ₁)
      (hRest : Runs (.block line rest) σ₁ ending second σ₂) :
      Runs (.block line (s :: rest)) σ ending (first ++ second) σ₂
  | blockLeave {line : Nat} {s : Stmt} {rest : List Stmt} {σ σ₁ : Store} {ending : Ending}
      {events : List Event} (hFirst : Runs s σ ending events σ₁) (hEnding : ending ≠ .normal) :
      Runs (.block line (s :: rest)) σ ending events σ₁
  | branchThen {line : Nat} {cond : Expr} {thenBranch : Stmt} {elseBranch : Option Stmt}
      {σ σ₁ : Store} {r : Evaluated} {ending : Ending} {events : List Event}
      (hCond : cond.eval σ = some r) (hTrue : r.value ≠ 0)
      (hThen : Runs thenBranch r.store ending events σ₁) :
      Runs (.branch line cond thenBranch elseBranch) σ ending (r.events ++ events) σ₁
  | branchElse {line : Nat} {cond : Expr} {thenBranch elseBranch : Stmt} {σ σ₁ : Store}
      {r : Evaluated} {ending : Ending} {events : List Event} (hCond : cond.eval σ = some r)
      (hFalse : r.value = 0) (hElse : Runs elseBranch r.store ending events σ₁) :
      Runs (.branch line cond thenBranch (some elseBranch)) σ ending (r.events ++ events) σ₁
  | branchSkip {line : Nat} {cond : Expr} {thenBranch : Stmt} {σ : Store} {r : Evaluated}
      (hCond : cond.eval σ = some r) (hFalse : r.value = 0) :
      Runs (.branch line cond thenBranch none) σ .normal r.events r.store
  | loopEnd {line : Nat} {cond : Expr} {body : Stmt} {σ : Store} {r : Evaluated}
      (hCond : cond.eval σ = some r) (hFalse : r.value = 0) :
      Runs (.loop line cond body) σ .normal r.events r.store
  | loopRound {line : Nat} {cond : Expr} {body : Stmt} {σ σ₁ σ₂ : Store} {r : Evaluated}
      {round ending : Ending} {first second : List Event} (hCond : cond.eval σ = some r)
      (hTrue : r.value ≠ 0) (hBody : Runs body r.store round first σ₁)
      (hRound : round.staysInLoop = true) (hLoop : Runs (.loop line cond body) σ₁ ending second σ₂) :
      Runs (.loop line cond body) σ ending (r.events ++ first ++ second) σ₂
  | loopBreak {line : Nat} {cond : Expr} {body : Stmt} {σ σ₁ : Store} {r : Evaluated}
      {events : List Event} (hCond : cond.eval σ = some r) (hTrue : r.value ≠ 0)
      (hBody : Runs body r.store .broke events σ₁) :
      Runs (.loop line cond body) σ .normal (r.events ++ events) σ₁
  | loopReturn {line : Nat} {cond : Expr} {body : Stmt} {σ σ₁ : Store} {r : Evaluated}
      {exit : String} {value : Int32} {events : List Event} (hCond : cond.eval σ = some r)
      (hTrue : r.value ≠ 0) (hBody : Runs body r.store (.returned exit value) events σ₁) :
      Runs (.loop line cond body) σ (.returned exit value) (r.events ++ events) σ₁
  | breakLoop {line : Nat} {σ : Store} : Runs (.breakLoop line) σ .broke [] σ
  | continueLoop {line : Nat} {σ : Store} : Runs (.continueLoop line) σ .continued [] σ
  | ret {line : Nat} {e : Expr} {exit : String} {σ : Store} {r : Evaluated}
      (hEval : e.eval σ = some r) :
      Runs (.ret line (some e) (some exit)) σ (.returned exit r.value) r.events r.store

/-- Statements over arithmetic expressions. Only inside a loop may a statement leave a round. -/
inductive Structured : Bool → Stmt → Prop where
  | expr {inLoop : Bool} (line : Nat) {e : Expr} (h : e.Arithmetic) : Structured inLoop (.expr line e)
  | print {inLoop : Bool} (line : Nat) {e : Expr} (h : e.Arithmetic) :
      Structured inLoop (.print line e)
  | declare {inLoop : Bool} (line : Nat) (type : TypeName) (names : List String) :
      Structured inLoop (.declare line type names)
  | empty {inLoop : Bool} (line : Nat) : Structured inLoop (.empty line)
  | block {inLoop : Bool} (line : Nat) {body : List Stmt} (h : ∀ s ∈ body, Structured inLoop s) :
      Structured inLoop (.block line body)
  | branch {inLoop : Bool} (line : Nat) {cond : Expr} {thenBranch : Stmt} {elseBranch : Option Stmt}
      (hCond : cond.Arithmetic) (hThen : Structured inLoop thenBranch)
      (hElse : ∀ s ∈ elseBranch, Structured inLoop s) :
      Structured inLoop (.branch line cond thenBranch elseBranch)
  | loop {inLoop : Bool} (line : Nat) {cond : Expr} {body : Stmt} (hCond : cond.Arithmetic)
      (hBody : Structured true body) : Structured inLoop (.loop line cond body)
  | breakLoop (line : Nat) : Structured true (.breakLoop line)
  | continueLoop (line : Nat) : Structured true (.continueLoop line)
  | ret {inLoop : Bool} (line : Nat) (exit : String) {e : Expr} (h : e.Arithmetic) :
      Structured inLoop (.ret line (some e) (some exit))

/-- The expressions of a statement and of all statements inside it. -/
def allOperands (s : Stmt) : List Expr := s.parts.flatMap operands

/-- The variables that are read or assigned to. -/
def accessed (s : Stmt) : List Variable := s.allOperands.flatMap Expr.accessed

/-- How many words the code of a structured statement has on the stack at most. -/
def stackWords (s : Stmt) : Nat := (s.allOperands.map Expr.stackWords).foldr max 0

/-- The expressions of the given statements get by with the variables and the words. The statements
inside them are not looked at. -/
def FitIn (xs : List Variable) (words : Nat) (ss : List Stmt) : Prop :=
  ∀ s ∈ ss, ∀ e ∈ s.operands, e.accessed ⊆ xs ∧ e.stackWords ≤ words

variable {xs : List Variable} {words : Nat}

theorem FitIn.within {ss more : List Stmt} (h : FitIn xs words more) (hss : ss ⊆ more) :
    FitIn xs words ss :=
  fun s hs => h s (hss hs)

theorem FitIn.own {e : Expr} (h : FitIn xs words s.parts) (he : e ∈ s.operands) :
    e.accessed ⊆ xs ∧ e.stackWords ≤ words :=
  h s s.self_mem_parts e he

/-- A block without its first statement. -/
theorem FitIn.tail {rest : List Stmt} (h : FitIn xs words (block line (s :: rest)).parts) :
    FitIn xs words s.parts ∧ FitIn xs words (block line rest).parts := by
  have hAll := h.within (subset_cons_self _ _)
  refine ⟨hAll.within (subset_append_left _ _), forall_mem_cons.mpr ⟨?_, ?_⟩⟩
  · exact fun e he => (not_mem_nil he).elim
  · exact hAll.within (subset_append_right _ _)

theorem FitIn.branches {thenBranch : Stmt} {elseBranch : Option Stmt}
    (h : FitIn xs words (branch line cond thenBranch elseBranch).parts) :
    FitIn xs words thenBranch.parts ∧ FitIn xs words (partsOfElse elseBranch) := by
  have hAll := h.within (subset_cons_self _ _)
  exact ⟨hAll.within (subset_append_left _ _), hAll.within (subset_append_right _ _)⟩

theorem FitIn.body {body : Stmt} (h : FitIn xs words (loop line cond body).parts) :
    FitIn xs words body.parts :=
  h.within (subset_cons_self _ _)

/-- A statement fits into the variables and the stack words that are counted for it. -/
theorem fitIn_parts (s : Stmt) : FitIn s.accessed s.stackWords s.parts := by
  intro part hPart e he
  have hMem : e ∈ s.allOperands := mem_flatMap.mpr ⟨part, hPart, he⟩
  refine ⟨fun x hx => mem_flatMap.mpr ⟨e, hMem, hx⟩, ?_⟩
  rw [stackWords]
  generalize s.allOperands = es at hMem
  induction es with
  | nil => cases hMem
  | cons e' es ih =>
    rw [map_cons, foldr_cons]
    rcases mem_cons.mp hMem with rfl | hMem
    · exact Nat.le_max_left _ _
    · exact Nat.le_trans (ih hMem) (Nat.le_max_right _ _)

end Stmt
end TLang
