import TLang.Listing.Outline
import TLang.Registry.Dispatch
import TLang.Registry.Layout

/-! The listing of a registry: the fields of every class with their offsets, its methods, and its
dispatch table. -/
namespace TLang

open Outline

namespace Registry

/-- A field with its type and offset, both as its declaring class sees them. -/
def fieldLine (r : Registry) (field : ClassId × String) : String :=
  let (owner, name) := field
  let ty := (r.lookupField owner name).getD .error
  let offset := (r.fieldOffset owner name).getD 0
  s!"field {(r.classInfo owner).name}.{name} : {r.typeName ty} @{offset}"

def methodLine (r : Registry) (method : MethodId) : String :=
  let m := r.methodInfo method
  s!"method {m.label} ({m.locals.names.length} locals)"

/-- One entry of a dispatch table. -/
def tableLine (offset : Nat) (label : String) : String := s!"@{offset} {label}"

/-- The dispatch table of a class, by offset. -/
def tableListing (r : Registry) (c : ClassInfo) : Outline :=
  let destructor := (c.destructor.map fun m => (r.methodInfo m).label).getD "-"
  under ("vmt " ++ c.vmtLabel)
    (leaf (tableLine destructorOffset destructor)
      ++ c.vmt.zipIdx.flatMap fun (m, slot) =>
        leaf (tableLine (slotOffset slot) (r.methodInfo m).label))

def classListing (r : Registry) (id : ClassId) : Outline :=
  let c := r.classInfo id
  let parent := note (fun p => "extends " ++ (r.classInfo p).name) c.parent
  under ("class " ++ c.name ++ parent)
    ((r.fieldLayout id).flatMap (fun field => leaf (r.fieldLine field))
      ++ c.methods.flatMap (fun m => leaf (r.methodLine m))
      ++ r.tableListing c)

def listing (r : Registry) : String := Outline.text (r.classIds.flatMap r.classListing)

end Registry
end TLang
