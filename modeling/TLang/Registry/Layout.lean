import TLang.Registry.Members

/-! Where the fields of an object are stored. The first cell of an object points to the dispatch
table of its class; the fields follow, those of the root first. -/
namespace TLang.Registry

/-- The declaring class and name of every field of an object, in order of storage. A subclass only
appends, so an inherited field stays where it is. -/
def fieldLayout (r : Registry) (id : ClassId) : List (ClassId × String) :=
  (r.chain id).reverse.flatMap fun c => (r.classInfo c).fields.names.map fun name => (c, name)

/-- The nearest class on the line of inheritance that declares the field. -/
def fieldOwner (r : Registry) (id : ClassId) (name : String) : Option ClassId :=
  (r.chain id).find? fun c => (r.classInfo c).fields.declares name

/-- The offset in bytes from the start of an object. -/
def fieldOffset (r : Registry) (id : ClassId) (name : String) : Option Nat := do
  let owner ← r.fieldOwner id name
  let rank ← (r.fieldLayout id).findIdx? (· == (owner, name))
  return 4 * (rank + 1)

/-- The number of cells an object takes. -/
def instanceCells (r : Registry) (id : ClassId) : Nat := (r.fieldLayout id).length + 1

end TLang.Registry
