/-! The types of the language and the names by which programs write them. Classes and methods are
referred to by the number under which the registry recorded them. -/
namespace TLang

/-- A class, by its number in order of registration. -/
structure ClassId where
  index : Nat
deriving DecidableEq

/-- A method, constructor or destructor, by its number in order of declaration. -/
structure MethodId where
  index : Nat
deriving DecidableEq

/-- What a node of the tree denotes. Only `int` and classes are types of storage: `untyped` marks a
node that no analysis has seen, `error` one whose fault has been reported, and `address` one that
denotes a cell and not the value in it. -/
inductive Ty where
  | int
  | null
  | untyped
  | error
  | address
  | ofClass (id : ClassId)
  | ofMethod (id : MethodId)
deriving DecidableEq

namespace Ty

/-- The class of a value of class type. -/
def class? : Ty → Option ClassId
  | ofClass id => some id
  | _ => none

/-- The types a variable, a field or a parameter may have. -/
def isConcrete : Ty → Bool
  | int | ofClass _ => true
  | _ => false

end Ty

/-- The three kinds of routine a class declares. Only plain methods are dispatched through the
table of the receiver's class. -/
inductive MethodKind where
  | method
  | constructor
  | destructor
deriving DecidableEq

/-- A type as it is written in a program, before any class is looked up. -/
inductive TypeName where
  | int
  | named (name : String)
deriving DecidableEq

namespace TypeName

def text : TypeName → String
  | int => "int"
  | named name => name

end TypeName
end TLang
