import Arbor.Diagnostic

/-!
This module contains the errors of evaluation: their causes, their wording, and the place where one arose.
-/

namespace Arbor

inductive EvalErrorKind where
  | typeMismatch (expected found : String)
  | undeclared (name : String)
  | alreadyDeclared (name : String)
  | notCallable (name : String)
  | arityMismatch (name : String) (expected found : Nat)
  | arrayTypeMismatch (expected found : String)
  | indexOutOfBounds (index : Int) (length : Nat)
  | notLiteral (found : String)
  | notAnArray (name : String)
  | divisionByZero
  | invalidOperands (op left right : String)
  | invalidOperand (op operand : String)
  | breakOutsideLoop
  | continueOutsideLoop
  | returnOutsideFunction
  | missingReturn (name : String)
  | stackOverflow (limit : Nat)
  | invalidNumber (text : String)
  | integerOutOfRange (n : Int)
  | arrayTooLarge (length : Int) (limit : Nat)
  deriving Repr, DecidableEq

structure EvalError where
  kind : EvalErrorKind
  span : Span
  deriving Repr, DecidableEq

namespace EvalErrorKind

def message : EvalErrorKind → String
  | typeMismatch expected found => s!"type mismatch: expected {expected}, found {found}"
  | undeclared name => s!"variable '{name}' is not declared"
  | alreadyDeclared name => s!"'{name}' is already declared in this scope"
  | notCallable name => s!"'{name}' is not callable"
  | arityMismatch name expected found =>
    s!"function '{name}' expects {expected} argument(s), got {found}"
  | arrayTypeMismatch expected found =>
    s!"array type mismatch: expected {expected} elements, found {found}"
  | indexOutOfBounds index length => s!"index {index} out of bounds (length {length})"
  | notLiteral found => s!"expected literal, found {found}"
  | notAnArray name => s!"'{name}' is not an array"
  | divisionByZero => "division by zero"
  | invalidOperands op left right => s!"invalid operands for '{op}': {left} and {right}"
  | invalidOperand op operand => s!"invalid operand for '{op}': {operand}"
  | breakOutsideLoop => "break outside of a loop or switch"
  | continueOutsideLoop => "continue outside of a loop"
  | returnOutsideFunction => "return outside of a function"
  | missingReturn name => s!"function '{name}' finished without returning a value"
  | stackOverflow limit => s!"max call depth exceeded ({limit})"
  | invalidNumber text => s!"invalid number '{text}'"
  | integerOutOfRange n => s!"integer literal {n} does not fit in 32 bits"
  | arrayTooLarge length limit => s!"array of {length} elements exceeds the limit of {limit}"

def suggestion : EvalErrorKind → Option String
  | undeclared name => some s!"declare '{name}' before using it"
  | divisionByZero => some "check the divisor before dividing"
  | arrayTooLarge .. => some "raise [evaluator] max_array_length in Oak.toml"
  | _ => none

/--
Whether an array declaration that failed with the error still binds its name, to null. It goes by the kind
of the error alone, wherever in the declaration it arose.
-/
def leavesNull : EvalErrorKind → Bool
  | arrayTypeMismatch .. | typeMismatch .. | arrayTooLarge .. => true
  | _ => false

end EvalErrorKind

def EvalError.diagnostic (e : EvalError) : Diagnostic :=
  ⟨.evaluation, e.kind.message, e.span, e.kind.suggestion⟩

end Arbor
