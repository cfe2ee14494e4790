import TLang.Ty

/-! Expressions. A tree as it is read carries lines only; analysis fills in types, storage, targets of
calls, and the two kinds of node that no program writes: reads of an address and widenings. -/
namespace TLang

inductive BinaryOp where
  | add
  | sub
  | mul
  | div
  | eq
  | lt
  | gt
deriving DecidableEq

namespace BinaryOp

def symbol : BinaryOp → String
  | add => "+"
  | sub => "-"
  | mul => "*"
  | div => "/"
  | eq => "=="
  | lt => "<"
  | gt => ">"

end BinaryOp

inductive UnaryOp where
  | neg
  | not
deriving DecidableEq

namespace UnaryOp

def symbol : UnaryOp → String
  | neg => "-"
  | not => "!"

end UnaryOp

/-- Where a variable is stored. -/
inductive Storage where
  /-- A static cell of the main block. -/
  | mainVar
  | param (index : Nat)
  /-- A cell of the frame, by rank of declaration. -/
  | localVar (slot : Nat)
  /-- A field of the current object, by offset in bytes. -/
  | field (offset : Nat)
deriving DecidableEq

/-- The object on which a method is called. -/
inductive Receiver (ε : Type) where
  /-- The current object, dispatched by its class. -/
  | implicit
  /-- The current object, bound to the method of the parent. -/
  | super
  | object (e : ε)

/-- The line of a node and, once it is analyzed, its type. -/
structure Mark where
  line : Nat
  ty : Ty := .untyped
deriving DecidableEq

/-- A node as it is read has a line and no type yet. -/
instance (line : Nat) : OfNat Mark line := ⟨{ line }⟩

inductive Expr where
  | int (mark : Mark) (value : Int32)
  | null (mark : Mark)
  | this (mark : Mark)
  | var (mark : Mark) (name : String) (storage : Option Storage)
  | binary (mark : Mark) (op : BinaryOp) (left right : Expr)
  | unary (mark : Mark) (op : UnaryOp) (operand : Expr)
  | assign (mark : Mark) (target value : Expr)
  | field (mark : Mark) (object : Expr) (name : String) (offset : Option Nat)
  /-- A call, with the method it was resolved to and its slot if it is dispatched. -/
  | call (mark : Mark) (receiver : Receiver Expr) (name : String) (args : List Expr)
      (method : Option MethodId) (slot : Option Nat)
  | new (mark : Mark) (className : String) (args : List Expr) (cls : Option ClassId)
      (constructor : Option MethodId)
  | cast (mark : Mark) (className : String) (operand : Expr) (cls : Option ClassId)
  /-- The value in the cell that the operand addresses. -/
  | deref (mark : Mark) (address : Expr)
  /-- The same reference, seen as one of another type. -/
  | convert (mark : Mark) (operand : Expr)

namespace Expr

def mark : Expr → Mark
  | int m _ | null m | this m | var m _ _ | binary m _ _ _ | unary m _ _ | assign m _ _
  | field m _ _ _ | call m _ _ _ _ _ | new m _ _ _ _ | cast m _ _ _ | deref m _ | convert m _ => m

def line (e : Expr) : Nat := e.mark.line

def ty (e : Expr) : Ty := e.mark.ty

/-- The same node with another type. -/
def withTy (e : Expr) (ty : Ty) : Expr :=
  let m : Mark := { e.mark with ty }
  match e with
  | int _ value => int m value
  | null _ => null m
  | this _ => this m
  | var _ name storage => var m name storage
  | binary _ op left right => binary m op left right
  | unary _ op operand => unary m op operand
  | assign _ target value => assign m target value
  | field _ object name offset => field m object name offset
  | call _ receiver name args method slot => call m receiver name args method slot
  | new _ className args cls constructor => new m className args cls constructor
  | cast _ className operand cls => cast m className operand cls
  | deref _ address => deref m address
  | convert _ operand => convert m operand

/-- Read the cell a node addresses, on the line of that node. -/
def read (address : Expr) (ty : Ty) : Expr := deref ⟨address.line, ty⟩ address

/-- Widen a value, on the line of that value. -/
def widen (e : Expr) (ty : Ty) : Expr := convert ⟨e.line, ty⟩ e

end Expr
end TLang
