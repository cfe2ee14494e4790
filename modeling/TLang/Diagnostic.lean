import TLang.Registry.Members

/-! What an analysis finds wrong with a program. A diagnostic is a line and a cause; its severity and
its wording follow from the cause. -/
namespace TLang

/-- A terminal finding forbids code generation; any other leaves the program usable. -/
inductive Severity where
  | nonterminal
  | terminal
deriving DecidableEq

/-- The two statements with a condition. -/
inductive Conditional where
  | branch
  | loop
deriving DecidableEq

namespace Conditional

def keyword : Conditional → String
  | branch => "if"
  | loop => "while"

end Conditional

/-- The two statements that leave the round of a loop. -/
inductive LoopExit where
  | toEnd
  | toCondition
deriving DecidableEq

namespace LoopExit

def keyword : LoopExit → String
  | toEnd => "break"
  | toCondition => "continue"

end LoopExit

/-- The cause of a diagnostic. Types are given by name, so that a cause means the same whatever
numbers the classes have. -/
inductive Fault where
  -- Classes and their members.
  | classRedefined (name : String)
  | unknownParent (name parent : String)
  | circularInheritance (name : String)
  | unknownType (name : String)
  | redeclared (member : Redeclaration) (className : String)
  | duplicateParameter (name method : String)
  | missingReturnType (method : String)
  | returnTypeForbidden (className : String)
  | constructorMisnamed (name className : String)
  | destructorTakesParameters (className : String)
  -- Statements.
  | duplicateVariable (name : String)
  | printExpectsInt (found : String)
  | conditionExpectsInt (construct : Conditional) (found : String)
  | outsideLoop (exit : LoopExit)
  | returnOutOfScope
  | missingReturnValue (method : String)
  | returnValueForbidden
  | mainReturnsInt (found : String)
  | returnMismatch (found expected : String)
  | deleteInt
  | deleteNull
  | deleteOther (found : String)
  | constructorCallOutside
  | constructorCallNotFirst
  | constructorCallsItself (className : String)
  | noConstructor (className call : String)
  -- Expressions.
  | thisOutsideMethod
  | superOutsideMethod
  | undeclaredVariable (name : String)
  | unrelatedComparison (left right : String)
  | invalidComparison (left right : String)
  | operandsNotInt (operator left right : String)
  | operandNotInt (operator found : String)
  | notAssignable
  | assignToNull
  | assignMismatch (value target : String)
  | assignNeedsCast (value target : String)
  | assignUnrelated (value target : String)
  | noField (className field : String)
  | fieldOfNonObject (field found : String)
  | callWithoutReceiver (method : String)
  | callOnNonObject (method found : String)
  | noMethod (call className : String)
  | undeclaredClass (name : String)
  | castToUndeclared (name : String)
  | invalidCast (found className : String)
  /-- A finding of a client, in its own words. -/
  | other (severity : Severity) (text : String)
deriving DecidableEq

namespace Redeclaration

/-- A second field of one name is dropped and the first one stands. Routines are not that
lenient, because calls could not be resolved. -/
def severity : Redeclaration → Severity
  | field _ => .nonterminal
  | method _ | destructor => .terminal

def message (className : String) : Redeclaration → String
  | field name => s!"field '{name}' is already declared in class '{className}'"
  | method signature => s!"method '{signature}' is already declared in class '{className}'"
  | destructor => s!"class '{className}' declares more than one destructor"

end Redeclaration

namespace Fault

def severity : Fault → Severity
  | undeclaredVariable _ | duplicateVariable _ => .nonterminal
  | redeclared member _ => member.severity
  | other severity _ => severity
  | _ => .terminal

def message : Fault → String
  | classRedefined name => s!"Class '{name}' already defined"
  | unknownParent name parent => s!"Class '{name}' extends undefined class '{parent}'"
  | circularInheritance name => s!"Circular inheritance detected involving class '{name}'"
  | unknownType name => s!"type '{name}' is not declared"
  | redeclared member className => member.message className
  | duplicateParameter name method =>
    s!"duplicate parameter declaration '{name}' in method '{method}'"
  | missingReturnType method => s!"method '{method}' must declare a return type"
  | returnTypeForbidden className =>
    s!"constructors and destructors of class '{className}' cannot declare a return type"
  | constructorMisnamed name className =>
    s!"constructor '{name}' does not match class name '{className}'"
  | destructorTakesParameters className =>
    s!"destructor of class '{className}' cannot take parameters"
  | duplicateVariable name => s!"variable '{name}' is already declared"
  | printExpectsInt found => s!"print expects an int value, found '{found}'"
  | conditionExpectsInt construct found =>
    s!"condition of '{construct.keyword}' must be an int expression, found '{found}'"
  | outsideLoop exit => s!"{exit.keyword} statement out of scope"
  | returnOutOfScope => "return statement out of scope"
  | missingReturnValue method => s!"method '{method}' must return a value"
  | returnValueForbidden => "constructors and destructors cannot return a value"
  | mainReturnsInt found => s!"main can only return an int value, found '{found}'"
  | returnMismatch found expected =>
    s!"cannot return '{found}' from a method returning '{expected}'"
  | deleteInt => "Can not delete int values"
  | deleteNull => "Can not delete null references"
  | deleteOther found => s!"Can not delete values of type '{found}'"
  | constructorCallOutside => "constructor invocation outside of a constructor"
  | constructorCallNotFirst =>
    "constructor invocation must be the first statement of a constructor"
  | constructorCallsItself className => s!"constructor of class '{className}' invokes itself"
  | noConstructor className call => s!"class '{className}' has no constructor {call}"
  | thisOutsideMethod => "'this' used outside of a method"
  | superOutsideMethod => "'super' used outside of a method"
  | undeclaredVariable name => s!"variable '{name}' is not declared"
  | unrelatedComparison left right =>
    s!"types are unrelated: cannot compare '{left}' with '{right}'"
  | invalidComparison left right => s!"operator '==' cannot compare '{left}' with '{right}'"
  | operandsNotInt operator left right =>
    s!"operator '{operator}' expects int operands, found '{left}' and '{right}'"
  | operandNotInt operator found =>
    s!"operator '{operator}' expects an int operand, found '{found}'"
  | notAssignable => "left side of assignment is not assignable"
  | assignToNull => "cannot assign to a null reference"
  | assignMismatch value target => s!"cannot assign '{value}' to '{target}'"
  | assignNeedsCast value target =>
    s!"cannot assign '{value}' to '{target}': an explicit cast is required"
  | assignUnrelated value target =>
    s!"cannot assign '{value}' to '{target}': types are unrelated"
  | noField className field => s!"class '{className}' has no field '{field}'"
  | fieldOfNonObject field found =>
    s!"cannot access field '{field}' on a value of type '{found}'"
  | callWithoutReceiver method =>
    s!"method '{method}' called without a receiver outside of a class"
  | callOnNonObject method found =>
    s!"cannot call method '{method}' on a value of type '{found}'"
  | noMethod call className => s!"method '{call}' is not declared in class '{className}'"
  | undeclaredClass name => s!"class '{name}' is not declared"
  | castToUndeclared name => s!"cast to undeclared class '{name}'"
  | invalidCast found className =>
    s!"cannot cast a value of type '{found}' to class '{className}'"
  | other _ text => text

end Fault

/-- A fault and the line it is reported for. -/
structure Diagnostic where
  line : Nat
  fault : Fault
deriving DecidableEq

namespace Diagnostic

def severity (d : Diagnostic) : Severity := d.fault.severity

def isTerminal (d : Diagnostic) : Bool := d.severity == .terminal

def message (d : Diagnostic) : String := d.fault.message

def text (d : Diagnostic) : String := s!"line {d.line}: {d.message}"

end Diagnostic
end TLang
