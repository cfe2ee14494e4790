import TLang.Syntax.Program

/-! Programs as they are read. A fresh tree carries no trace of an analysis: nodes are untyped and
unresolved, nothing is read from an address or widened, and no class was completed. -/
namespace TLang

mutual

def Expr.isFresh : Expr → Bool
  | .int mark _ | .null mark | .this mark => mark.ty = .untyped
  | .var mark _ storage => mark.ty = .untyped && storage.isNone
  | .binary mark _ left right => mark.ty = .untyped && left.isFresh && right.isFresh
  | .unary mark _ operand => mark.ty = .untyped && operand.isFresh
  | .assign mark target value => mark.ty = .untyped && target.isFresh && value.isFresh
  | .field mark object _ offset => mark.ty = .untyped && object.isFresh && offset.isNone
  | .call mark receiver _ args method slot =>
    mark.ty = .untyped && Expr.isFreshReceiver receiver && Expr.areFresh args && method.isNone &&
      slot.isNone
  | .new mark _ args cls constructor =>
    mark.ty = .untyped && Expr.areFresh args && cls.isNone && constructor.isNone
  | .cast mark _ operand cls => mark.ty = .untyped && operand.isFresh && cls.isNone
  | .deref _ _ | .convert _ _ => false

def Expr.isFreshReceiver : Receiver Expr → Bool
  | .implicit | .super => true
  | .object e => e.isFresh

def Expr.areFresh : List Expr → Bool
  | [] => true
  | e :: rest => e.isFresh && Expr.areFresh rest

end

mutual

def Stmt.isFresh : Stmt → Bool
  | .expr _ e | .print _ e | .delete _ e => e.isFresh
  | .declare _ _ _ | .breakLoop _ | .continueLoop _ | .empty _ => true
  | .block _ body => Stmt.areFresh body
  | .branch _ cond thenBranch elseBranch =>
    cond.isFresh && thenBranch.isFresh && Stmt.isFreshElse elseBranch
  | .loop _ cond body => cond.isFresh && body.isFresh
  | .ret _ value exitLabel => value.all Expr.isFresh && exitLabel.isNone
  | .construct _ _ args constructor => Expr.areFresh args && constructor.isNone

def Stmt.isFreshElse : Option Stmt → Bool
  | none => true
  | some s => s.isFresh

def Stmt.areFresh : List Stmt → Bool
  | [] => true
  | s :: rest => s.isFresh && Stmt.areFresh rest

end

def MethodDecl.isFresh (d : MethodDecl) : Bool :=
  d.owner.isNone && d.resolved.isNone && !d.synthetic && Stmt.areFresh d.body

def Member.isFresh : Member → Bool
  | .field d => d.owner.isNone
  | .method d => d.isFresh

def ClassDecl.isFresh (d : ClassDecl) : Bool := d.resolved.isNone && d.members.all Member.isFresh

/-- A program to which nothing but reading has happened. -/
def Program.isFresh (p : Program) : Bool :=
  p.classes.all ClassDecl.isFresh && Stmt.areFresh p.main.body

end TLang
