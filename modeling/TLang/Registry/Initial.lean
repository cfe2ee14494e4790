import TLang.Registry.Dispatch

/-! The registry before any class of a program is known. -/
namespace TLang.Registry

/-- The name of the root class. -/
def objectName : String := "Object"

/-- The root class has an empty constructor, an empty destructor, and a method that compares two
references. -/
def initial : Registry where
  classes := [{
    name := objectName
    members.methods := [("Object", .ofMethod ⟨0⟩), ("Destructor", .ofMethod ⟨1⟩),
      ("equals$Object", .ofMethod ⟨2⟩)]
    methods := [⟨0⟩, ⟨1⟩, ⟨2⟩]
    hasConstructor := true
    hasDestructor := true
    destructor := some ⟨1⟩
    vmt := [⟨2⟩] }]
  methods := [
    { name := objectName, owner := object, kind := .constructor
      signature := "Object", label := "Object$Object" },
    { name := destructorSignature, owner := object, kind := .destructor
      signature := "Destructor", label := "Object$Destructor" },
    { name := "equals", owner := object, kind := .method
      params := [("other", .ofClass object)], returns := some .int
      signature := "equals$Object", label := "Object$equals$Object" }]
  byName := [(objectName, object)]

end TLang.Registry
