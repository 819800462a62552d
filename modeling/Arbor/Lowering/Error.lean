import Arbor.Diagnostic

/-!
This module contains the errors of lowering: their causes, their wording, and the place where one arose. Every
one of them ends the lowering of a program.
-/

namespace Arbor

inductive LoweringErrorKind where
  | unresolvedVariable (name : String)
  | unknownRoutine (name : String)
  | unsupportedOperator (op operand : String)
  | unsupported (what : String)
  | typeMismatch (expected found : String)
  | redeclared (name : String)
  | breakOutsideLoop
  | continueOutsideLoop
  | notAnArray (name : String)
  | arityMismatch (name : String) (expected found : Nat)
  | stackUnderflow
  | integerOutOfRange (n : Int)
  deriving Repr, DecidableEq

structure LoweringError where
  kind : LoweringErrorKind
  span : Span
  deriving Repr, DecidableEq

namespace LoweringErrorKind

def message : LoweringErrorKind → String
  | unresolvedVariable name => s!"unresolved variable '{name}'"
  | unknownRoutine name => s!"unknown builtin '{name}'"
  | unsupportedOperator op operand => s!"unsupported operator '{op}' for {operand}"
  | unsupported what => s!"not supported by the code generator: {what}"
  | typeMismatch expected found => s!"type mismatch: expected {expected}, found {found}"
  | redeclared name => s!"'{name}' is already declared in this scope"
  | breakOutsideLoop => "break outside of a loop or switch"
  | continueOutsideLoop => "continue outside of a loop"
  | notAnArray name => s!"'{name}' is not an array"
  | arityMismatch name expected found =>
    s!"function '{name}' expects {expected} argument(s), got {found}"
  | stackUnderflow => "shadow stack underflow"
  | integerOutOfRange n => s!"integer literal {n} does not fit in 32 bits"

def suggestion : LoweringErrorKind → Option String
  | unsupported _ => some "run the program with the evaluator instead"
  | unresolvedVariable name => some s!"declare '{name}' before using it"
  | _ => none

end LoweringErrorKind

def LoweringError.diagnostic (e : LoweringError) : Diagnostic :=
  ⟨.generation, e.kind.message, e.span, e.kind.suggestion⟩

end Arbor
