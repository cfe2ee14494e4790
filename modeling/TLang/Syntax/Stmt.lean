import TLang.Syntax.Expr

/-! Statements. -/
namespace TLang

/-- The constructor that a constructor hands over to: another one of its class, or one of the
parent. -/
inductive Delegate where
  | this
  | super
deriving DecidableEq

inductive Stmt where
  | expr (line : Nat) (e : Expr)
  | declare (line : Nat) (type : TypeName) (names : List String)
  | print (line : Nat) (e : Expr)
  | block (line : Nat) (body : List Stmt)
  | branch (line : Nat) (cond : Expr) (thenBranch : Stmt) (elseBranch : Option Stmt)
  | loop (line : Nat) (cond : Expr) (body : Stmt)
  /-- A return, with the label it jumps to once it is analyzed. -/
  | ret (line : Nat) (value : Option Expr) (exitLabel : Option String)
  | breakLoop (line : Nat)
  | continueLoop (line : Nat)
  | delete (line : Nat) (target : Expr)
  | construct (line : Nat) (delegate : Delegate) (args : List Expr) (constructor : Option MethodId)
  | empty (line : Nat)

namespace Stmt

def line : Stmt → Nat
  | expr l _ | declare l _ _ | print l _ | block l _ | branch l _ _ _ | loop l _ _ | ret l _ _
  | breakLoop l | continueLoop l | delete l _ | construct l _ _ _ | empty l => l

def isConstruct : Stmt → Bool
  | construct _ _ _ _ => true
  | _ => false

/-- The call of the parent's constructor without arguments. -/
def superCall (line : Nat) : Stmt := construct line .super [] none

end Stmt
end TLang
