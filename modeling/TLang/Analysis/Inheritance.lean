import TLang.Analysis.Stmt

/-! Registering the classes of a program and settling what each of them extends. -/
namespace TLang

namespace ClassDecl

open Analysis

/-- Register a class. A name that is taken is reported, and the declaration stays as it was. -/
def register (d : ClassDecl) : Analysis ClassDecl := do
  match ← change (.registerClass d.name) with
  | .ok id => return { d with resolved := some id }
  | .error name =>
    report d.line (.classRedefined name)
    return d

/-- Link a registered class to its parent. An unknown parent is reported and replaced by the root
class. -/
def linkParent (d : ClassDecl) : Analysis Unit :=
  match d.resolved with
  | none => pure ()
  | some id => do
    let parentName := d.parent.getD Registry.objectName
    let env ← get
    match env.types.lookupClass parentName with
    | some parent => set { env with types := env.types.setParent id parent }
    | none =>
      report d.line (.unknownParent d.name parentName)
      set { env with types := env.types.setParent id Registry.object }

/-- Break a cycle of inheritance at a class that lies on it. The class then extends the root
class. -/
def breakCycle (d : ClassDecl) : Analysis Unit :=
  match d.resolved with
  | none => pure ()
  | some id => do
    let env ← get
    if env.types.inheritsFromItself id then
      report d.line (.circularInheritance d.name)
      set { env with types := env.types.setParent id Registry.object }

end ClassDecl

namespace Registry

/-- The number of classes on the line of inheritance of a declared class. -/
def depth? (r : Registry) (d : ClassDecl) : Option Nat := d.resolved.map fun id => (r.chain id).length

/-- The indices of the registered declarations, parents before their subclasses and otherwise in
order of declaration. -/
def declarationOrder (r : Registry) (ds : List ClassDecl) : List Nat :=
  let depths := ds.map r.depth?
  (List.range (r.classes.length + 2)).flatMap fun depth =>
    (List.range ds.length).filter fun i => depths[i]? == some (some depth)

end Registry

namespace Analysis

/-- Register all classes, link them, and break every cycle of inheritance. The result is the
declarations and the order in which to treat them, parents first. -/
def collectClasses (ds : List ClassDecl) : Analysis (List ClassDecl × List Nat) := do
  let ds ← ds.mapM ClassDecl.register
  ds.forM ClassDecl.linkParent
  ds.forM ClassDecl.breakCycle
  let env ← get
  return (ds, env.types.declarationOrder ds)

/-- Rework the declarations at the given indices, one after the other. -/
def inOrder (order : List Nat) (step : ClassDecl → Analysis ClassDecl) (ds : List ClassDecl) :
    Analysis (List ClassDecl) :=
  order.foldlM (fun ds i =>
    match ds[i]? with
    | some d => do
      let d ← step d
      return ds.set i d
    | none => pure ds) ds

end Analysis
end TLang
