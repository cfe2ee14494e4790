import TLang.Code.Stmt
import TLang.Env
import TLang.Syntax.Program

/-! Code for programs: the dispatch tables, the routines of the root class, the routines of every
class, and the main block. -/
namespace TLang

namespace Emit

def comment (text : String) : Emit Unit := line (.comment text)

def header : Emit Unit := do
  comment "T compiler output"
  lines (SupportRoutine.all.map fun r => .external r.symbol)

/-- The table of one class: the table of its parent, its destructor, and its virtual methods by
slot. -/
def dispatchTable (types : Registry) (c : ClassInfo) : Emit Unit := do
  let destructor ← require (.noDestructor c.name) c.destructor
  lines [.align, .label (.symbol c.vmtLabel),
    .word (c.parent.map fun p => .symbol (types.classInfo p).vmtLabel),
    .word (some (.symbol (types.methodInfo destructor).label))]
  lines (c.vmt.map fun m => .word (some (.symbol (types.methodInfo m).label)))

def dispatchTables (types : Registry) : Emit Unit := do
  line .dataSection
  types.classes.forM (dispatchTable types)

/-- A routine of the root class. The constructor and the destructor do nothing, and the method tells
whether its argument is the current object. -/
def objectRoutine (m : MethodInfo) : Emit Unit := do
  prologue m.label 0
  if m.isVirtual then
    instrs [.mov (.mem 8 .ebp) (.reg .eax), .arith .cmp (.mem 12 .ebp) .eax, .set .equal, .extendByte]
  label (.symbol m.exitLabel)
  epilogue

def objectRoutines (types : Registry) : Emit Unit := do
  let methods := (types.classInfo Registry.object).methods
  if methods.isEmpty then
    throw .noObjectRoutines
  comment "class Object"
  methods.forM fun m => objectRoutine (types.methodInfo m)

/-- Hand the current object over to the destructor of the parent. -/
def parentDestructor (types : Registry) (c : ClassId) : Emit Unit :=
  match types.parent c with
  | none => pure ()
  | some p => do
    let parent := types.classInfo p
    let destructor ← require (.noDestructor parent.name) parent.destructor
    instrs [.push (.mem 8 .ebp), .call (.symbol (types.methodInfo destructor).label), .drop 1]

end Emit

open Emit

namespace MethodDecl

/-- The routine of a method. Control that reaches the end of the body returns zero. -/
def code (types : Registry) (c : ClassId) (d : MethodDecl) : Emit Unit := do
  let id ← require (.methodNotAnalyzed d.name) d.resolved
  let info := types.methodInfo id
  setInMain false
  prologue info.label info.locals.names.length
  Stmt.codeAll types d.body
  instrs [.mov (.imm 0) (.reg .eax)]
  label (.symbol info.exitLabel)
  if info.kind = .destructor then
    parentDestructor types c
  epilogue

end MethodDecl

namespace Member

/-- Fields need no code. -/
def code (types : Registry) (c : ClassId) : Member → Emit Unit
  | field _ => pure ()
  | method d => d.code types c

end Member

namespace ClassDecl

def code (types : Registry) (d : ClassDecl) : Emit Unit := do
  let id ← require (.classNotAnalyzed d.name) d.resolved
  comment ("class " ++ d.name)
  d.members.forM (Member.code types id)

end ClassDecl

namespace MainBlock

def code (types : Registry) (m : MainBlock) : Emit Unit := do
  setInMain true
  comment "main"
  prologue entryLabel 0
  Stmt.codeAll types m.body
  instrs [.mov (.imm 0) (.reg .eax)]
  label (.symbol exitLabel)
  epilogue
  setInMain false

end MainBlock

namespace Program

/-- The code of a whole program. -/
def code (types : Registry) (p : Program) : Emit Unit := do
  header
  dispatchTables types
  objectRoutines types
  p.classes.forM (ClassDecl.code types)
  p.main.code types

end Program

namespace Generator

/-- A generator for a context. Terminal diagnostics forbid code generation. -/
def ofContext (c : Context) : Except Refusal Generator :=
  if c.isAborted then .error .terminalErrors else .ok {}

/-- The text of a program, behind whatever was produced before. If it succeeds the lines are handed
out and none are left; if it is refused they stay. -/
def generate (g : Generator) (types : Registry) (p : Program) : Except Refusal String × Generator :=
  match g.run (p.code types) with
  | (.ok (), g) => (.ok (Line.fileText g.lines), { g with lines := [] })
  | (.error refusal, g) => (.error refusal, g)

end Generator
end TLang
