import Arbor.Decimal.Text
import Arbor.Lowering.State
import Arbor.Syntax.Tree
import Arbor.Text.Escape
import Arbor.Text.Quoted

/-!
This module contains the lowering of literals: every value is a word. A string is the address of its bytes, which
the code writes to the heap, ended by a zero byte.
-/

namespace Arbor.Lowering

open Assembly

def intWord (n : Int64) : Except LoweringErrorKind Int :=
  if -2 ^ 31 ≤ n.toInt ∧ n.toInt < 2 ^ 31 then .ok n.toInt else .error (.integerOutOfRange n.toInt)

def floatWord (x : Float) : Int :=
  x.toFloat32.toBits.toInt32.toInt

def boolWord (b : Bool) : Int :=
  if b then 1 else 0

def wordOfBytes (b0 b1 b2 b3 : UInt8) : Int :=
  (b0.toUInt32 ||| b1.toUInt32 <<< 8 ||| b2.toUInt32 <<< 16 ||| b3.toUInt32 <<< 24).toInt32.toInt

def packBytes : List UInt8 → List Int
  | [] => []
  | [b0] => [wordOfBytes b0 0 0 0]
  | [b0, b1] => [wordOfBytes b0 b1 0 0]
  | [b0, b1, b2] => [wordOfBytes b0 b1 b2 0]
  | b0 :: b1 :: b2 :: b3 :: rest => wordOfBytes b0 b1 b2 b3 :: packBytes rest

def packString (s : String) : List Int :=
  packBytes (s.toUTF8.toList ++ [0])

def appendWord (word : Int) : List Line :=
  [.li .t1 word, .sw .t1 0 .hp, .addi .hp .hp wordBytes]

def pushString (s : String) : Lower Unit := do
  emit [.comment ("string " ++ Text.quoted s), .mv .t0 .hp]
  pushValue .t0 .string
  emit ((packString s).flatMap appendWord)

def loadZero (rd : Register) : Scalar → Line
  | .string => .la rd FixedString.emptyText.label
  | _ => .li rd 0

def pushZero (s : Scalar) : Lower Unit := do
  emit [loadZero .t0 s]
  pushValue .t0 (.scalar s)

def pushWord (word : Int) (kind : SlotKind) : Lower SlotKind := do
  emit [.li .t0 word]
  pushValue .t0 kind
  return kind

def lowerLiteral (span : Span) : Literal → Lower SlotKind
  | .int n => do pushWord (← liftAt span (intWord n)) .int
  | .float x => do
    emit [.comment ("float " ++ Decimal.FloatForm.printed.text x)]
    pushWord (floatWord x) .float
  | .bool b => pushWord (boolWord b) .bool
  | .char c => pushWord (charCode c) .char
  | .string raw => do
    pushString (Text.unescape raw)
    return .string

/--
The character of a string literal with only one, also between parentheses.
-/
def singleChar? : Expr → Option Char
  | .literal _ (.string raw) =>
    match (Text.unescape raw).toList with
    | [c] => some c
    | _ => none
  | .grouping _ inner => singleChar? inner
  | _ => none

def intLiteral? : Expr → Option Int64
  | .literal _ (.int n) => some n
  | .grouping _ inner => intLiteral? inner
  | _ => none

end Arbor.Lowering
