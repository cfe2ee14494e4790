import TLang.Registry.Basic

/-! Inheritance. A class is followed by its ancestors, nearest first. Parent links may form a cycle
while a program is being read; the walk then stops before it would repeat a class. -/
namespace TLang.Registry

/-- Extend a walk that has seen `seen` and stands at `current` by at most `steps` parents. -/
def climb (r : Registry) : Nat → List ClassId → ClassId → List ClassId
  | 0, seen, _ => seen
  | steps + 1, seen, current =>
    match r.parent current with
    | none => seen
    | some p => if p ∈ seen then seen else climb r steps (seen ++ [p]) p

/-- A class and its ancestors, nearest first. Each step meets a new class, so there are never more
steps than classes. -/
def chain (r : Registry) (id : ClassId) : List ClassId := r.climb r.classes.length [id] id

/-- The proper ancestors, nearest first. -/
def ancestors (r : Registry) (id : ClassId) : List ClassId := (r.chain id).tail

/-- Every class counts as a subclass of itself. -/
def isSubclass (r : Registry) (id ancestor : ClassId) : Bool := decide (ancestor ∈ r.chain id)

/-- The higher of two classes on one line of inheritance. -/
def related (r : Registry) (a b : ClassId) : Option ClassId :=
  if r.isSubclass a b then some b else if r.isSubclass b a then some a else none

/-- A class is its own proper ancestor, that is, it lies on a cycle of parent links. -/
def inheritsFromItself (r : Registry) (id : ClassId) : Bool :=
  (r.parent id).any fun p => r.isSubclass p id

/-- A value of the first type may stand where the second is expected: the types agree, or null
stands for an object, or a subclass for its ancestor. -/
def isAssignable (r : Registry) (source target : Ty) : Bool :=
  source == target ||
    match source, target with
    | .null, .ofClass _ => true
    | .ofClass sub, .ofClass super => r.isSubclass sub super
    | _, _ => false

end TLang.Registry
