import Arbor.Lowering.Literal
import Arbor.Value.Basic

/-!
This module contains the lowering of calls. Only the embedded functions can be called, by their names and with one
argument.
-/

namespace Arbor.Lowering

open Assembly

def embeddedCallee : Expr → Except LoweringErrorKind Embedded
  | .var _ name =>
    match Embedded.ofName? name with
    | some f => .ok f
    | none =>
      .error (.unsupported s!"call to '{name}': user-defined functions run only in the evaluator")
  | _ => .error (.unsupported "calls through computed values")

def conversion? : Scalar → Option Routine
  | .int => some .intToString
  | .float => some .floatToString
  | .bool => some .boolToString
  | .char => some .charToString
  | .string => none

def applyRoutine (span : Span) (r : Routine) (result : SlotKind) : Lower SlotKind := do
  popValue span .a0
  callRoutine r
  pushValue .a0 result
  return result

def applyToString (span argSpan : Span) (kind : SlotKind) (r : Routine) (result : SlotKind) :
    Lower SlotKind :=
  if kind = .string then applyRoutine span r result
  else fail argSpan (.typeMismatch SlotKind.string.text kind.text)

/--
Call an embedded function on the newest value. The kind of a value is known here, so `typeof` is a string of the
program.
-/
def applyEmbedded (span argSpan : Span) (f : Embedded) (kind : SlotKind) : Lower SlotKind :=
  match f with
  | .typeOf => do
    discard span
    pushString kind.text
    return .string
  | .toText =>
    match kind with
    | .scalar s =>
      match conversion? s with
      | some r => applyRoutine span r .string
      | none => return .string
    | .array _ => fail span (.unsupported "toString of an array")
  | .parseInt => applyToString span argSpan kind .parseInt .int
  | .parseFloat => applyToString span argSpan kind .parseFloat .float
  | .toLowerCase => applyToString span argSpan kind .toLowerCase .string
  | .toUpperCase => applyToString span argSpan kind .toUpperCase .string

end Arbor.Lowering
