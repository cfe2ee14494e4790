import TLang.Analysis.Inheritance

/-! Declaring the members of classes and completing each class: it takes over the fields of its
ancestors, and gets a constructor and a destructor if it declares none. -/
namespace TLang

namespace Analysis

/-- Add a member to a class, or report that it is declared already. -/
def addMember (line : Nat) (id : ClassId) (className name : String) (ty : Ty) : Analysis Bool := do
  match ← change (.addMember id name ty) with
  | .ok () => return true
  | .error member =>
    report line (.redeclared member className)
    return false

/-- The types of parameters. A second parameter of one name is reported and dropped. -/
def resolveParams (method : String) : List Param → Bindings → Analysis Bindings
  | [], known => pure known
  | p :: rest, known => do
    let ty ← read fun env => env.resolveTypeName p.line p.type
    match known.add? p.name ty with
    | some known => resolveParams method rest known
    | none =>
      report p.line (.duplicateParameter p.name method)
      resolveParams method rest known

/-- Methods declare a return type; constructors and destructors do not. -/
def resolveReturn (className : String) (d : MethodDecl) : Analysis (Option Ty) :=
  match d.kind, d.returns with
  | .method, some name => do
    let ty ← read fun env => env.resolveTypeName d.line name
    return some ty
  | .method, none => do
    report d.line (.missingReturnType d.name)
    return some .error
  | _, some _ => do
    report d.line (.returnTypeForbidden className)
    return none
  | _, none => pure none

/-- A constructor has the name of its class, and a destructor takes no parameters. -/
def checkShape (className : String) (d : MethodDecl) : Analysis Unit :=
  match d.kind with
  | .constructor =>
    if d.name = className then pure () else report d.line (.constructorMisnamed d.name className)
  | .destructor =>
    if d.params.isEmpty then pure () else report d.line (.destructorTakesParameters className)
  | .method => pure ()

/-- Note that the program itself declares a constructor or a destructor of a class. -/
def noteDeclared (id : ClassId) (kind : MethodKind) : Analysis Unit :=
  modify fun env => { env with
    types := env.types.updateClass id fun c =>
      match kind with
      | .constructor => { c with hasConstructor := true }
      | .destructor => { c with hasDestructor := true }
      | .method => c }

/-- Declare a method of a class. A method that is refused keeps the record it had. -/
def declareMethod (id : ClassId) (d : MethodDecl) : Analysis MethodDecl := do
  let className := ((← get).types.classInfo id).name
  let params ← resolveParams d.name d.params []
  let returns ← resolveReturn className d
  checkShape className d
  let env ← get
  let (method, types) := env.types.declareMethod id d.name d.kind params returns
  set { env with types }
  if ← addMember d.line id className d.name (.ofMethod method) then
    if !d.synthetic then
      noteDeclared id d.kind
    return { d with resolved := some method }
  else
    return d

/-- Declare the fields of one declaration, all of one type. -/
def declareFields (id : ClassId) (className : String) (d : FieldDecl) : Analysis Unit := do
  let ty ← read fun env => env.resolveTypeName d.line d.type
  d.names.forM fun name => do
    let _ ← addMember d.line id className name ty

/-- Declare a member and stamp it with the class that it stands in. -/
def declareMember (id : ClassId) (className : String) : Member → Analysis Member
  | .field d => do
    declareFields id className d
    return .field { d with owner := some className }
  | .method d => do
    let d ← declareMethod id { d with owner := some className }
    return .method d

end Analysis

namespace ClassDecl

open Analysis

def declareMembers (d : ClassDecl) : Analysis ClassDecl :=
  match d.resolved with
  | none => pure d
  | some id => do
    let members ← d.members.mapM (declareMember id d.name)
    return { d with members }

/-- The constructor of a class that declares none. It only calls the one of the parent. -/
def defaultConstructor (d : ClassDecl) : MethodDecl where
  line := d.line
  kind := .constructor
  name := d.name
  body := [.superCall d.line]
  owner := some d.name
  synthetic := true

/-- The destructor of a class that declares none. The one of the parent is called on the way out of
every destructor, so the body is empty. -/
def defaultDestructor (d : ClassDecl) : MethodDecl where
  line := d.line
  kind := .destructor
  name := "~" ++ d.name
  owner := some d.name
  synthetic := true

def graft (d : ClassDecl) (id : ClassId) (method : MethodDecl) : Analysis ClassDecl := do
  let method ← declareMethod id method
  return { d with members := d.members ++ [.method method] }

/-- Inherit fields, and add the constructor and the destructor that are missing. -/
def complete (d : ClassDecl) : Analysis ClassDecl :=
  match d.resolved with
  | none => pure d
  | some id => do
    modify fun env => { env with types := env.types.inheritFields id }
    let d ← if ((← get).types.classInfo id).hasConstructor then pure d
      else d.graft id d.defaultConstructor
    if ((← get).types.classInfo id).destructor.isSome then return d
    else d.graft id d.defaultDestructor

/-- Build the dispatch table of a class. -/
def buildVMT (d : ClassDecl) : Analysis ClassDecl :=
  match d.resolved with
  | none => pure d
  | some id => do
    modify fun env => { env with types := env.types.buildVMT id }
    return d

end ClassDecl
end TLang
