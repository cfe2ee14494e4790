import TLang.SymbolTable

/-! The classes and methods of a program. Records are kept in order of registration and are only
ever extended or updated in place, so a number handed out once keeps its meaning. -/
namespace TLang

/-- What is known of a method, constructor or destructor. -/
structure MethodInfo where
  name : String
  owner : ClassId
  kind : MethodKind
  params : Bindings := []
  /-- Absent for constructors and destructors. -/
  returns : Option Ty := none
  /-- The variables declared in the body, in the order of their cells in the frame. -/
  locals : SymbolTable := {}
  signature : String
  label : String
deriving DecidableEq

namespace MethodInfo

def isVirtual (m : MethodInfo) : Bool := m.kind == .method

/-- Where every return of the routine goes. -/
def exitLabel (m : MethodInfo) : String := m.label ++ "$exit"

end MethodInfo

/-- What is known of a class. -/
structure ClassInfo where
  name : String
  parent : Option ClassId := none
  /-- Fields, inherited ones included, and the methods declared here. -/
  members : SymbolTable := {}
  /-- The fields declared here, in order. -/
  fields : Bindings := []
  /-- The methods declared here, in order. -/
  methods : List MethodId := []
  hasConstructor : Bool := false
  hasDestructor : Bool := false
  destructor : Option MethodId := none
  /-- The virtual methods by slot. The two reserved words before the first slot hold the table of
  the parent and the destructor. -/
  vmt : List MethodId := []
deriving DecidableEq

namespace ClassInfo

def vmtLabel (c : ClassInfo) : String := c.name ++ "$VMT"

end ClassInfo

/-- All classes and methods, each at the index that is its number. -/
structure Registry where
  classes : List ClassInfo
  methods : List MethodInfo
  /-- The numbers of the classes by name. A later entry stands before the earlier ones. -/
  byName : List (String × ClassId)
deriving DecidableEq

namespace Registry

/-- The root of all classes is the first one registered. -/
def object : ClassId := ⟨0⟩

/-- The record of a class. A number that was never handed out reads as a nameless empty class. -/
def classInfo (r : Registry) (id : ClassId) : ClassInfo :=
  r.classes[id.index]?.getD { name := "" }

/-- The record of a method. A number that was never handed out reads as a nameless one. -/
def methodInfo (r : Registry) (id : MethodId) : MethodInfo :=
  r.methods[id.index]?.getD
    { name := "", owner := object, kind := .method, signature := "", label := "" }

def updateClass (r : Registry) (id : ClassId) (f : ClassInfo → ClassInfo) : Registry :=
  { r with classes := r.classes.modify id.index f }

def updateMethod (r : Registry) (id : MethodId) (f : MethodInfo → MethodInfo) : Registry :=
  { r with methods := r.methods.modify id.index f }

def classIds (r : Registry) : List ClassId := (List.range r.classes.length).map ClassId.mk

def lookupClass (r : Registry) (name : String) : Option ClassId :=
  (r.byName.find? (·.1 == name)).map Prod.snd

/-- Steps that change a registry until one of them is refused. What was changed before a refusal stays
changed. -/
abbrev Change (ε : Type) := ExceptT ε (StateM Registry)

namespace Change

variable {ε α : Type}

/-- Carry out a change: its answer, and the registry that it leaves, whatever the answer is. -/
def on (x : Change ε α) (r : Registry) : Except ε α × Registry := x.run.run r

/-- What a change makes of a registry, unless it is refused. -/
def outcome (x : Change ε α) (r : Registry) : Except ε (α × Registry) :=
  match x.on r with
  | (.ok a, r') => .ok (a, r')
  | (.error e, _) => .error e

/-- Record a class under the next number, unless its name is taken. -/
def registerClass (name : String) : Change String ClassId := do
  if ((← get).lookupClass name).isSome then
    throw name
  let id := ⟨(← get).classes.length⟩
  modify fun r => { r with classes := r.classes ++ [{ name }] }
  modify fun r => { r with byName := (name, id) :: r.byName }
  return id

variable {β : Type} (r : Registry)

@[simp] theorem on_pure (a : α) : (pure a : Change ε α).on r = (.ok a, r) := rfl

@[simp] theorem on_modify (f : Registry → Registry) : (modify f : Change ε Unit).on r = (.ok (), f r) := rfl

@[simp] theorem on_throw (e : ε) : (throw e : Change ε α).on r = (.error e, r) := rfl

@[simp] theorem on_get_bind (k : Registry → Change ε α) : (get >>= k).on r = (k r).on r := rfl

@[simp] theorem on_modify_bind (f : Registry → Registry) (k : Unit → Change ε α) :
    (modify f >>= k).on r = (k ()).on (f r) := rfl

@[simp] theorem on_throw_bind (e : ε) (k : β → Change ε α) : (throw e >>= k).on r = (.error e, r) := rfl

end Change

def parent (r : Registry) (id : ClassId) : Option ClassId := (r.classInfo id).parent

def setParent (r : Registry) (id parent : ClassId) : Registry :=
  r.updateClass id fun c => { c with parent := some parent }

/-- The name of a type as it appears in signatures and messages. -/
def typeName (r : Registry) : Ty → String
  | .int => "int"
  | .null => "null"
  | .untyped => "notype"
  | .error => "error"
  | .address => "deref"
  | .ofClass id => (r.classInfo id).name
  | .ofMethod id => (r.methodInfo id).signature

variable (r : Registry)

@[simp] theorem classInfo_updateMethod (m : MethodId)
    (f : MethodInfo → MethodInfo) (id : ClassId) :
    (r.updateMethod m f).classInfo id = r.classInfo id := rfl

@[simp] theorem methodInfo_updateClass (c : ClassId)
    (f : ClassInfo → ClassInfo) (id : MethodId) :
    (r.updateClass c f).methodInfo id = r.methodInfo id := rfl

theorem classInfo_updateClass_self {id : ClassId} (f : ClassInfo → ClassInfo)
    (hId : id.index < r.classes.length) :
    (r.updateClass id f).classInfo id = f (r.classInfo id) := by
  simp [classInfo, updateClass, hId]

theorem classInfo_updateClass_of_ne {id other : ClassId}
    (f : ClassInfo → ClassInfo) (hOther : other ≠ id) :
    (r.updateClass id f).classInfo other = r.classInfo other := by
  have hIndex : id.index ≠ other.index := by
    intro hEq
    exact hOther (congrArg ClassId.mk hEq.symm)
  simp [classInfo, updateClass, hIndex]

theorem methodInfo_updateMethod_self {id : MethodId}
    (f : MethodInfo → MethodInfo) (hId : id.index < r.methods.length) :
    (r.updateMethod id f).methodInfo id = f (r.methodInfo id) := by
  simp [methodInfo, updateMethod, hId]

theorem methodInfo_updateMethod_of_ne {id other : MethodId}
    (f : MethodInfo → MethodInfo) (hOther : other ≠ id) :
    (r.updateMethod id f).methodInfo other = r.methodInfo other := by
  have hIndex : id.index ≠ other.index := by
    intro hEq
    exact hOther (congrArg MethodId.mk hEq.symm)
  simp [methodInfo, updateMethod, hIndex]

@[simp] theorem length_classes_updateClass (id : ClassId)
    (f : ClassInfo → ClassInfo) : (r.updateClass id f).classes.length = r.classes.length := by
  simp [updateClass]

@[simp] theorem length_methods_updateMethod (id : MethodId)
    (f : MethodInfo → MethodInfo) : (r.updateMethod id f).methods.length = r.methods.length := by
  simp [updateMethod]

end Registry
end TLang
