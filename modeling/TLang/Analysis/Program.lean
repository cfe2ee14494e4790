import TLang.Analysis.Members

/-! Analysis of whole programs. All classes are registered, declared, completed and given their
dispatch tables before the first body is typed, so bodies may refer to any class. -/
namespace TLang

open Analysis

namespace MethodDecl

/-- The statements of a method. A constructor that does not open with a call of another constructor
calls the one of the parent. -/
def fullBody (d : MethodDecl) : List Stmt :=
  if d.kind = .constructor ∧ ¬ d.body.head?.any Stmt.isConstruct then
    .superCall d.line :: d.body
  else
    d.body

/-- Type the body of a declared method. -/
def analyzeBody (d : MethodDecl) : Analysis MethodDecl :=
  match d.resolved with
  | none => pure d
  | some id => do
    modify (·.updatePosition (·.enterMethod id))
    let body ← Stmt.analyzeBody (d.kind = .constructor) d.fullBody
    modify (·.updatePosition (·.leaveMethod))
    return { d with body }

end MethodDecl

namespace Member

def analyzeBody : Member → Analysis Member
  | field d => pure (field d)
  | method d => do
    let d ← d.analyzeBody
    return method d

end Member

namespace ClassDecl

/-- Type the bodies of the methods of a registered class. -/
def analyzeBodies (d : ClassDecl) : Analysis ClassDecl :=
  match d.resolved with
  | none => pure d
  | some id => do
    modify (·.updatePosition (·.enterClass id))
    let members ← d.members.mapM Member.analyzeBody
    modify (·.updatePosition (·.leaveClass))
    return { d with members }

end ClassDecl

namespace MainBlock

def analyze (m : MainBlock) : Analysis MainBlock := do
  modify (·.updatePosition (·.enterMain))
  let body ← Stmt.analyzeBody false m.body
  modify (·.updatePosition (·.leaveMain))
  return { m with body }

end MainBlock

namespace Program

/-- Settle the classes of a program up to their dispatch tables. -/
def declareClasses (ds : List ClassDecl) : Analysis (List ClassDecl) := do
  let (ds, order) ← collectClasses ds
  let ds ← inOrder order ClassDecl.declareMembers ds
  let ds ← inOrder order ClassDecl.complete ds
  inOrder order ClassDecl.buildVMT ds

/-- Type the bodies of all classes and then the main block. -/
def analyzeBodies (p : Program) : Analysis Program := do
  let classes ← p.classes.mapM ClassDecl.analyzeBodies
  let main ← p.main.analyze
  return { classes, main }

/-- Analyze a program. -/
def analyze (p : Program) : Analysis Program := do
  let classes ← declareClasses p.classes
  analyzeBodies { p with classes }

end Program

namespace Context

/-- Analyze a program in a context and add what is reported to its diagnostics. -/
def analyze (c : Context) (p : Program) : Program × Context :=
  let result := p.analyze.run c.env
  (result.value.1, { env := result.value.2, diagnostics := c.diagnostics ++ result.log })

end Context
end TLang
