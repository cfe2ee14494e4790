import TLang.Registry.Lineage

/-! Declaring the fields and methods of a class. -/
namespace TLang

/-- Why a member is not added: its class already has one like it. -/
inductive Redeclaration where
  | field (name : String)
  | method (signature : String)
  | destructor
deriving DecidableEq

namespace Registry

/-- The signature shared by all destructors. -/
def destructorSignature : String := "Destructor"

/-- A method's name followed by the names of its parameter types. All destructors share one
signature. -/
def signature (r : Registry) (name : String) (kind : MethodKind) (params : List Ty) : String :=
  match kind with
  | .destructor => destructorSignature
  | _ => params.foldl (fun text ty => text ++ "$" ++ r.typeName ty) name

/-- Record a method under the next number. It belongs to no class until it is added as a member. -/
def declareMethod (r : Registry) (owner : ClassId) (name : String) (kind : MethodKind)
    (params : Bindings) (returns : Option Ty) : MethodId × Registry :=
  let signature := r.signature name kind params.types
  let label := (r.classInfo owner).name ++ "$" ++ signature
  (⟨r.methods.length⟩,
    { r with methods := r.methods ++ [{ name, owner, kind, params, returns, signature, label }] })

namespace Change

/-- Add a method under its signature. A class has at most one destructor. -/
def addMethod (id : ClassId) (method : MethodId) : Change Redeclaration Unit := do
  let info := (← get).methodInfo method
  let owner := (← get).classInfo id
  if info.kind = .destructor ∧ owner.destructor.isSome then
    throw .destructor
  match owner.members.installMethod? info.signature (.ofMethod method) with
  | none => throw (.method info.signature)
  | some members => modify (updateClass · id fun c => { c with members })
  if info.kind = .destructor then
    modify (updateClass · id fun c => { c with destructor := some method })
  modify (updateClass · id fun c => { c with methods := c.methods ++ [method] })

/-- Add a field behind those already declared. -/
def addField (id : ClassId) (name : String) (ty : Ty) : Change Redeclaration Unit := do
  match ((← get).classInfo id).members.install? name ty with
  | none => throw (.field name)
  | some members => modify (updateClass · id fun c => { c with members })
  modify (updateClass · id fun c => { c with fields := c.fields ++ [(name, ty)] })

/-- Add a member. A name of method type is a method, any other a field. -/
def addMember (id : ClassId) (name : String) : Ty → Change Redeclaration Unit
  | .ofMethod method => addMethod id method
  | ty => addField id name ty

end Change

/-- The registry with one more member of a class, unless that is refused. -/
def addMember (r : Registry) (id : ClassId) (name : String) (ty : Ty) : Except Redeclaration Registry :=
  ((Change.addMember id name ty).outcome r).map Prod.snd

/-- The fields of the proper ancestors below the root, nearest class first. -/
def inheritedFields (r : Registry) (id : ClassId) : Bindings :=
  ((r.ancestors id).takeWhile (· ≠ object)).flatMap fun c => (r.classInfo c).fields

/-- Copy inherited fields into the member table. The nearest declaration of a name wins. -/
def inheritFields (r : Registry) (id : ClassId) : Registry :=
  r.updateClass id fun c =>
    { c with members.names := c.members.names.extend (r.inheritedFields id) }

def lookupField (r : Registry) (id : ClassId) (name : String) : Option Ty :=
  (r.classInfo id).members.names.type? name

end Registry
end TLang
