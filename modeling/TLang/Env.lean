import TLang.Diagnostic
import TLang.Registry.Initial

/-! What a name may refer to at a point of a program: the registry, the variables of the main block,
and the position among classes and methods. -/
namespace TLang

/-- The innermost scope at a position. -/
inductive ScopeKind where
  | method (id : MethodId)
  | cls (id : ClassId)
  | program
deriving DecidableEq

/-- Whether the main block, a class and a method have been entered. -/
structure Position where
  inMain : Bool := false
  inClass : Option ClassId := none
  inMethod : Option MethodId := none
deriving DecidableEq

namespace Position

def enterMain (p : Position) : Position := { p with inMain := true }

def leaveMain (p : Position) : Position := { p with inMain := false }

def enterClass (p : Position) (id : ClassId) : Position := { p with inClass := some id }

/-- Leaving a class also leaves any of its methods. -/
def leaveClass (p : Position) : Position := { p with inClass := none, inMethod := none }

def enterMethod (p : Position) (id : MethodId) : Position := { p with inMethod := some id }

def leaveMethod (p : Position) : Position := { p with inMethod := none }

/-- The method entered. It counts only inside a class. -/
def method? (p : Position) : Option MethodId := p.inClass.bind fun _ => p.inMethod

def scope (p : Position) : ScopeKind :=
  match p.inClass, p.inMethod with
  | some _, some m => .method m
  | some c, none => .cls c
  | none, _ => .program

end Position

/-- The environment of an analysis. -/
structure Env where
  types : Registry := .initial
  /-- The variables of the main block. -/
  globals : SymbolTable := {}
  position : Position := {}
deriving DecidableEq

namespace Env

/-- The table in which a declaration at this position is recorded. -/
def scopeTable (env : Env) : SymbolTable :=
  match env.position.scope with
  | .method m => (env.types.methodInfo m).locals
  | .cls c => (env.types.classInfo c).members
  | .program => env.globals

def setScopeTable (env : Env) (table : SymbolTable) : Env :=
  match env.position.scope with
  | .method m => { env with types := env.types.updateMethod m fun i => { i with locals := table } }
  | .cls c => { env with types := env.types.updateClass c fun i => { i with members := table } }
  | .program => { env with globals := table }

/-- Inside a method, the members of the class that owns it. -/
def enclosingTable (env : Env) : Option SymbolTable :=
  match env.position.scope with
  | .method m => some (env.types.classInfo (env.types.methodInfo m).owner).members
  | _ => none

/-- The record of the method entered. -/
def method? (env : Env) : Option MethodInfo := env.position.method?.map env.types.methodInfo

def updatePosition (env : Env) (f : Position → Position) : Env :=
  { env with position := f env.position }

end Env

/-- An environment and all diagnostics reported so far, oldest first. -/
structure Context where
  env : Env := {}
  diagnostics : List Diagnostic := []
deriving DecidableEq

namespace Context

/-- Some diagnostic forbids code generation. -/
def isAborted (c : Context) : Bool := c.diagnostics.any Diagnostic.isTerminal

def report (c : Context) (d : Diagnostic) : Context :=
  { c with diagnostics := c.diagnostics ++ [d] }

end Context
end TLang
