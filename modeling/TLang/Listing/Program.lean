import TLang.Listing.Outline
import TLang.Registry.Basic
import TLang.Syntax.Program

/-! The listing of a program: one line for each node, its parts one level deeper, and behind every
expression its type. -/
namespace TLang

open Outline

namespace Storage

def text : Storage → String
  | mainVar => "MainVar"
  | param index => s!"Param({index})"
  | localVar slot => s!"Local({slot})"
  | field offset => s!"Field({offset})"

end Storage

namespace Expr

/-- What a node is, without its type. -/
def heading (types : Registry) : Expr → String
  | int _ value => "IntLiteral " ++ toString value.toInt
  | null _ => "Null"
  | this _ => "This"
  | var _ name storage => "Variable " ++ name ++ note Storage.text storage
  | binary _ op _ _ => "Binary " ++ op.symbol
  | unary _ op _ => "Unary " ++ op.symbol
  | assign _ _ _ => "Assign"
  | field _ _ name offset => "FieldRef " ++ name ++ note (fun o => s!"@{o}") offset
  | call _ receiver name _ method slot =>
    let qualifier := match receiver with
      | .super => "super."
      | _ => ""
    "Call " ++ qualifier ++ name ++ note (fun m => "-> " ++ (types.methodInfo m).label) method
      ++ note (fun s => s!"[slot {s}]") slot
  | new _ className _ _ _ => "New " ++ className
  | cast _ className _ _ => "Cast " ++ className
  | deref _ _ => "Deref"
  | convert _ _ => "Convert"

/-- The line of a node. -/
def title (types : Registry) (e : Expr) : String := e.heading types ++ " : " ++ types.typeName e.ty

end Expr

mutual

def Expr.listing (types : Registry) (e : Expr) : Outline :=
  under (e.title types) <|
    match e with
    | .int _ _ | .null _ | .this _ | .var _ _ _ => []
    | .binary _ _ left right => left.listing types ++ right.listing types
    | .unary _ _ operand => operand.listing types
    | .assign _ target value => target.listing types ++ value.listing types
    | .field _ object _ _ => object.listing types
    | .call _ receiver _ args _ _ =>
      Expr.listingReceiver types receiver ++ Expr.listingArgs types args
    | .new _ _ args _ _ => Expr.listingArgs types args
    | .cast _ _ operand _ => operand.listing types
    | .deref _ address => address.listing types
    | .convert _ operand => operand.listing types

def Expr.listingReceiver (types : Registry) : Receiver Expr → Outline
  | .object e => e.listing types
  | _ => []

def Expr.listingArgs (types : Registry) : List Expr → Outline
  | [] => []
  | e :: rest => e.listing types ++ Expr.listingArgs types rest

end

namespace Delegate

def text : Delegate → String
  | this => "this"
  | super => "super"

end Delegate

namespace TypeName

/-- A declaration of several names of one type. -/
def declaring (type : TypeName) (names : List String) : String :=
  type.text ++ " " ++ ", ".intercalate names

end TypeName

mutual

def Stmt.listing (types : Registry) : Stmt → Outline
  | .expr _ e => under "ExprStmt" (e.listing types)
  | .declare _ type names => leaf ("Declaration " ++ type.declaring names)
  | .print _ e => under "Print" (e.listing types)
  | .block _ body => under "Block" (Stmt.listingAll types body)
  | .branch _ cond thenBranch elseBranch =>
    under "If"
      (cond.listing types ++ thenBranch.listing types ++ Stmt.listingElse types elseBranch)
  | .loop _ cond body => under "While" (cond.listing types ++ body.listing types)
  | .ret _ value exitLabel =>
    under ("Return" ++ note (fun label => "-> " ++ label) exitLabel)
      (match value with
        | some e => e.listing types
        | none => [])
  | .breakLoop _ => leaf "Break"
  | .continueLoop _ => leaf "Continue"
  | .delete _ target => under "Delete" (target.listing types)
  | .construct _ delegate args constructor =>
    under ("ConstructorInvoke " ++ delegate.text
        ++ note (fun m => "-> " ++ (types.methodInfo m).label) constructor)
      (Expr.listingArgs types args)
  | .empty _ => leaf "Empty"

def Stmt.listingElse (types : Registry) : Option Stmt → Outline
  | none => []
  | some s => under "Else" (s.listing types)

def Stmt.listingAll (types : Registry) : List Stmt → Outline
  | [] => []
  | s :: rest => s.listing types ++ Stmt.listingAll types rest

end

namespace MethodKind

def text : MethodKind → String
  | method => "Method"
  | constructor => "Constructor"
  | destructor => "Destructor"

end MethodKind

namespace MethodDecl

def heading (d : MethodDecl) : String :=
  let params := ", ".intercalate (d.params.map fun p => p.type.text ++ " " ++ p.name)
  d.kind.text ++ " " ++ d.name ++ "(" ++ params ++ ")"
    ++ note (fun type : TypeName => "-> " ++ type.text) d.returns
    ++ (if d.synthetic then " [synthetic]" else "")

end MethodDecl

namespace Member

def listing (types : Registry) : Member → Outline
  | field d => leaf ("Field " ++ d.type.declaring d.names)
  | method d => under d.heading (Stmt.listingAll types d.body)

end Member

namespace ClassDecl

def listing (types : Registry) (d : ClassDecl) : Outline :=
  let parent := d.parent.getD "Object"
  under s!"ClassDecl {d.name} extends {parent} (line {d.line})"
    (d.members.flatMap (Member.listing types))

end ClassDecl

namespace Program

def outline (types : Registry) (p : Program) : Outline :=
  under "CompilationUnit"
    (p.classes.flatMap (ClassDecl.listing types)
      ++ under s!"Main (line {p.main.line})" (Stmt.listingAll types p.main.body))

def listing (types : Registry) (p : Program) : String := (p.outline types).text

end Program
end TLang
