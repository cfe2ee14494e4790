import TLang.Syntax.Expr

/-! A reference evaluator for integer expressions: literals, variables, operators and assignments, as
analysis leaves them. Operands are evaluated from left to right on 32-bit integers. -/
namespace TLang

/-- A variable with a cell of its own. -/
inductive Variable where
  | main (name : String)
  | param (index : Nat)
  | frame (slot : Nat)
deriving DecidableEq

/-- The variable that a name with a storage refers to. A field is not a variable: its cell is found
through an object. -/
def Variable.of? (name : String) : Storage → Option Variable
  | .mainVar => some (.main name)
  | .param index => some (.param index)
  | .localVar slot => some (.frame slot)
  | .field _ => none

/-- The values of all variables. -/
abbrev Store := Variable → Int32

def Store.assign (σ : Store) (x : Variable) (value : Int32) : Store := fun y =>
  if y = x then value else σ y

/-- The outcome of an evaluation. -/
structure Evaluated where
  value : Int32
  store : Store
  /-- The lines of the divisions by zero, in order. -/
  zeroDivisions : List Nat := []

/-- Zero is false, and true is one. -/
def truth (b : Bool) : Int32 := if b then 1 else 0

def UnaryOp.apply (a : Int32) : UnaryOp → Int32
  | .neg => -a
  | .not => truth (a = 0)

/-- The quotient, toward zero. That of the least integer and minus one is no 32-bit integer. -/
def quotient? (a b : Int32) : Option Int32 :=
  if a = Int32.minValue ∧ b = -1 then none else some (a / b)

/-- The value of a binary operation, and the line of it if it divides by zero. -/
def BinaryOp.apply (line : Nat) (a b : Int32) : BinaryOp → Option (Int32 × List Nat)
  | .add => some (a + b, [])
  | .sub => some (a - b, [])
  | .mul => some (a * b, [])
  | .div => if b = 0 then some (0, [line]) else (quotient? a b).map (·, [])
  | .eq => some (truth (a = b), [])
  | .lt => some (truth (a < b), [])
  | .gt => some (truth (a > b), [])

namespace Expr

/-- Expressions of integers, variables of integers, operators and assignments. -/
inductive Arithmetic : Expr → Prop where
  | int (line : Nat) (value : Int32) : Arithmetic (.int ⟨line, .int⟩ value)
  | read (line varLine : Nat) {name : String} {storage : Storage} {x : Variable}
      (hVariable : Variable.of? name storage = some x) :
      Arithmetic (.deref ⟨line, .int⟩ (.var ⟨varLine, .address⟩ name (some storage)))
  | unary (line : Nat) (op : UnaryOp) {operand : Expr} (hOperand : Arithmetic operand) :
      Arithmetic (.unary ⟨line, .int⟩ op operand)
  | binary (line : Nat) (op : BinaryOp) {left right : Expr} (hLeft : Arithmetic left)
      (hRight : Arithmetic right) : Arithmetic (.binary ⟨line, .int⟩ op left right)
  | assign (line varLine : Nat) {name : String} {storage : Storage} {x : Variable} {value : Expr}
      (hVariable : Variable.of? name storage = some x) (hValue : Arithmetic value) :
      Arithmetic (.assign ⟨line, .int⟩ (.var ⟨varLine, .address⟩ name (some storage)) value)

/-- The value of an arithmetic expression, unless it divides the least integer by minus one. -/
def eval : Expr → Store → Option Evaluated
  | .int _ value, σ => some { value, store := σ }
  | .deref _ (.var _ name (some storage)), σ => do
    let x ← Variable.of? name storage
    return { value := σ x, store := σ }
  | .unary _ op operand, σ => do
    let a ← operand.eval σ
    return { a with value := op.apply a.value }
  | .binary mark op left right, σ => do
    let a ← left.eval σ
    let b ← right.eval a.store
    (op.apply mark.line a.value b.value).map fun (value, lines) =>
      { value, store := b.store, zeroDivisions := a.zeroDivisions ++ b.zeroDivisions ++ lines }
  | .assign _ (.var _ name (some storage)) value, σ => do
    let x ← Variable.of? name storage
    let a ← value.eval σ
    return { a with store := a.store.assign x a.value }
  | _, _ => none

/-- The variables that are read or assigned to. -/
def accessed : Expr → List Variable
  | .var _ name (some storage) => (Variable.of? name storage).toList
  | .deref _ operand | .unary _ _ operand => operand.accessed
  | .binary _ _ left right => left.accessed ++ right.accessed
  | .assign _ target value => target.accessed ++ value.accessed
  | _ => []

/-- How many words the code of an arithmetic expression has on the stack at most. -/
def stackWords : Expr → Nat
  | .unary _ _ operand => operand.stackWords
  | .binary _ _ left right => max left.stackWords (right.stackWords + 1)
  | .assign _ _ value => value.stackWords + 1
  | _ => 1

theorem one_le_stackWords (e : Expr) : 1 ≤ e.stackWords := by
  induction e using stackWords.induct with
  | case1 _ _ _ ih => exact ih
  | case2 _ _ _ _ ihLeft _ => exact Nat.le_trans ihLeft (Nat.le_max_left _ _)
  | case3 => exact Nat.le_add_left _ _
  | case4 => simp [stackWords]

end Expr
end TLang
