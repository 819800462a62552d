import Arbor.Value.Basic
import Arbor.Text.Blank
import Arbor.Decimal.Reader

/-!
This module contains what the embedded functions compute. They are total on every list of arguments, also on
one of the wrong length, so that the count of arguments is the caller's business.
-/

namespace Arbor.Embedded

open Value

def textArg : List Value → Except EvalErrorKind String
  | .text s :: _ => .ok s
  | v :: _ => .error (.typeMismatch Scalar.string.text v.kind.text)
  | [] => .error (.typeMismatch Scalar.string.text "nothing")

def truncate (x : Float) : Float :=
  if x < 0.0 then x.ceil else x.floor

/--
The int that a text writes: a whole number of 32 bits, or any finite number whose whole part fits them.
-/
def readInt (s : String) : Except EvalErrorKind Value :=
  let trimmed := Text.trim s
  match (Decimal.readInt? trimmed.toList).filter fun n => -2 ^ 31 ≤ n && n < 2 ^ 31 with
  | some n => .ok (int (Int32.ofInt n))
  | none =>
    match Decimal.readFloat? trimmed.toList with
    | none => .error (.invalidNumber trimmed)
    | some x =>
      let whole := truncate x
      if !x.isFinite || whole < -2147483648.0 || 2147483647.0 < whole then
        .error (.invalidNumber trimmed)
      else .ok (int whole.toInt32)

def readFloat (s : String) : Except EvalErrorKind Value :=
  let trimmed := Text.trim s
  match Decimal.readFloat? trimmed.toList with
  | some x => .ok (float x)
  | none => .error (.invalidNumber trimmed)

def displayed : List Value → Except EvalErrorKind Value
  | .function f :: _ => .error (.notLiteral f.name)
  | v :: _ => .ok (text v.display)
  | [] => .ok (text "")

def kindName : List Value → Value
  | v :: _ => text v.kind.text
  | [] => text Kind.null.text

/--
Apply an embedded function. The case mappings change ASCII letters only.
-/
def apply (f : Embedded) (args : List Value) : Except EvalErrorKind Value :=
  match f with
  | parseInt => (textArg args).bind readInt
  | parseFloat => (textArg args).bind readFloat
  | toText => displayed args
  | toLowerCase => (textArg args).map fun s => text (s.map Char.toLower)
  | toUpperCase => (textArg args).map fun s => text (s.map Char.toUpper)
  | typeOf => .ok (kindName args)

end Arbor.Embedded
