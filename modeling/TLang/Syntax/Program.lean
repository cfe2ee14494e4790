import TLang.Syntax.Stmt

/-! Classes and programs. -/
namespace TLang

/-- A parameter as it is written. -/
structure Param where
  line : Nat
  type : TypeName
  name : String

/-- One declaration of fields. -/
structure FieldDecl where
  line : Nat
  type : TypeName
  names : List String
  /-- The class it was analyzed in. -/
  owner : Option String := none

structure MethodDecl where
  line : Nat
  kind : MethodKind := .method
  name : String
  returns : Option TypeName := none
  params : List Param := []
  body : List Stmt := []
  /-- The class it was analyzed in. -/
  owner : Option String := none
  resolved : Option MethodId := none
  /-- Added by analysis, since the class declares none of this kind. -/
  synthetic : Bool := false

inductive Member where
  | field (decl : FieldDecl)
  | method (decl : MethodDecl)

structure ClassDecl where
  line : Nat
  name : String
  /-- A class that names no parent extends the root class. -/
  parent : Option String := none
  members : List Member := []
  resolved : Option ClassId := none

/-- The statements a program runs. -/
structure MainBlock where
  line : Nat
  body : List Stmt

namespace MainBlock

/-- The entry point of the program. -/
def entryLabel : String := "main"

/-- Where every return of the main block goes. -/
def exitLabel : String := "main$exit"

end MainBlock

structure Program where
  classes : List ClassDecl
  main : MainBlock

end TLang
