import TLang.Analysis.Program
import TLang.Code.Program
import TLang.Listing.Classes
import TLang.Listing.Program

/-! Compilation of programs: analysis, the listings asked for, and the assembly. -/
namespace TLang

/-- Why an operation of the compiler has no result. -/
inductive CompileError where
  /-- A fault met outside of an analysis. -/
  | semantic (diagnostic : Diagnostic)
  /-- Analysis found terminal faults. All diagnostics are kept. -/
  | aborted (diagnostics : List Diagnostic)
  | codeGeneration (refusal : Refusal)
deriving DecidableEq

namespace CompileError

def message : CompileError → String
  | semantic diagnostic =>
    s!"Semantic error at line {diagnostic.line}: {diagnostic.message}"
  | aborted diagnostics => s!"Compilation aborted with {diagnostics.length} error(s)"
  | codeGeneration refusal => s!"Code generation error: {refusal.message}"

end CompileError

namespace Registry

/-- Register a class. The line is that of its declaration. -/
def registerClass (r : Registry) (line : Nat) (name : String) :
    Except CompileError (ClassId × Registry) :=
  ((Change.registerClass name).outcome r).mapError fun name => .semantic ⟨line, .classRedefined name⟩

end Registry

/-- The stages of a compilation that can be shown. -/
inductive Stage where
  | before
  | after
  | classes
deriving DecidableEq

/-- Which stages to show. -/
structure Options where
  before : Bool := false
  after : Bool := false
  classes : Bool := false
deriving DecidableEq

/-- What a successful compilation yields. -/
structure Compilation where
  assembly : String
  warnings : List Diagnostic
  listings : List (Stage × String)
deriving DecidableEq

namespace Program

/-- The listings asked for, in the order of the stages. -/
def listings (options : Options) (source : Program) (analyzed : Program) (types : Registry) :
    List (Stage × String) :=
  (if options.before then [(.before, source.listing .initial)] else [])
    ++ (if options.after then [(.after, analyzed.listing types)] else [])
    ++ (if options.classes then [(.classes, types.listing)] else [])

/-- Compile a program. A terminal fault ends the compilation before any code is generated. -/
def compile (options : Options) (p : Program) : Except CompileError Compilation :=
  let (analyzed, context) := Context.analyze {} p
  if context.isAborted then
    .error (.aborted context.diagnostics)
  else
    match (Generator.generate {} context.env.types analyzed).1 with
    | .error refusal => .error (.codeGeneration refusal)
    | .ok assembly => .ok {
        assembly
        warnings := context.diagnostics
        listings := p.listings options analyzed context.env.types }

end Program

end TLang
