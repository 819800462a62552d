import Arbor.Lowering.Literal

/-!
This module contains the lowering of operators. The operands are the two newest values, the right one on top;
they are popped, and the result is pushed.
-/

namespace Arbor.Lowering

open Assembly

/-! Conversions -/

def promoteSlot (n : Nat) : Lower Unit := do
  let offset := n * wordBytes
  emit [.comment "int -> float", .lw .t0 offset .sp, .floatOfInt .ft0 .t0, .bitsOfFloat .t0 .ft0,
    .sw .t0 offset .sp]
  setKindAt n .float

/--
Convert the int operand of a float to a float. The result is whether the operation is one on floats.
-/
def promoteOperands : SlotKind → SlotKind → Lower Bool
  | .int, .int => return false
  | .int, _ => do
    promoteSlot 1
    return true
  | _, .int => do
    promoteSlot 0
    return true
  | _, _ => return true

/--
Use the newest value where a value of another kind is asked for. Only ints are converted, to floats.
-/
def convertTop (span : Span) (found target : SlotKind) : Lower Unit :=
  if found = target then return ()
  else if found = .int ∧ target = .float then promoteSlot 0
  else fail span (.typeMismatch target.text found.text)

def charToText (n : Nat) : Lower Unit := do
  let offset := n * wordBytes
  emit [.lw .a0 offset .sp]
  callRoutine .charToString
  emit [.sw .a0 offset .sp]
  setKindAt n .string

def textOperands (left right : SlotKind) : Lower Unit := do
  if left = .char then charToText 1
  if right = .char then charToText 0

/-! Operators on ints -/

def intOperation : BinaryOp → List Line
  | .add => [.add .t0 .t0 .t1]
  | .sub => [.sub .t0 .t0 .t1]
  | .mul => [.mul .t0 .t0 .t1]
  | .div => [.div .t0 .t0 .t1]
  | _ => [.rem .t0 .t0 .t1]

def isDivision : BinaryOp → Bool
  | .div | .mod => true
  | _ => false

def intArithmetic (span : Span) (op : BinaryOp) : Lower SlotKind := do
  popValue span .t1
  popValue span .t0
  if isDivision op then
    emit [.mv .a0 .t1]
    callRoutine .checkDivZero
  emit (intOperation op)
  pushValue .t0 .int
  return .int

def intComparison : BinaryOp → List Line
  | .lt => [.slt .t0 .t0 .t1]
  | .gt => [.slt .t0 .t1 .t0]
  | .le => [.slt .t0 .t1 .t0, .xori .t0 .t0 1]
  | .ge => [.slt .t0 .t0 .t1, .xori .t0 .t0 1]
  | .eq => [.xor .t0 .t0 .t1, .seqz .t0 .t0]
  | _ => [.xor .t0 .t0 .t1, .snez .t0 .t0]

def compareInts (span : Span) (op : BinaryOp) : Lower SlotKind := do
  popValue span .t1
  popValue span .t0
  emit (intComparison op)
  pushValue .t0 .bool
  return .bool

/-! Operators on floats -/

def popFloats (span : Span) : Lower Unit := do
  popValue span .t1
  popValue span .t0
  emit [.floatOfBits .ft1 .t1, .floatOfBits .ft0 .t0]

def floatOperation : BinaryOp → List Line
  | .add => [.fadd .ft0 .ft0 .ft1]
  | .sub => [.fsub .ft0 .ft0 .ft1]
  | .mul => [.fmul .ft0 .ft0 .ft1]
  | .div => [.fdiv .ft0 .ft0 .ft1]
  | _ =>
    [.comment "a % b = a - trunc(a / b) * b", .fdiv .ft2 .ft0 .ft1, .intOfFloat .t2 .ft2,
      .floatOfInt .ft2 .t2, .fmul .ft2 .ft2 .ft1, .fsub .ft0 .ft0 .ft2]

def floatArithmetic (span : Span) (op : BinaryOp) : Lower SlotKind := do
  popFloats span
  emit (floatOperation op)
  emit [.bitsOfFloat .t0 .ft0]
  pushValue .t0 .float
  return .float

def floatComparison : BinaryOp → List Line
  | .lt => [.flt .t0 .ft0 .ft1]
  | .gt => [.flt .t0 .ft1 .ft0]
  | .le => [.fle .t0 .ft0 .ft1]
  | .ge => [.fle .t0 .ft1 .ft0]
  | .eq => [.feq .t0 .ft0 .ft1]
  | _ => [.feq .t0 .ft0 .ft1, .xori .t0 .t0 1]

def compareFloats (span : Span) (op : BinaryOp) : Lower SlotKind := do
  popFloats span
  emit (floatComparison op)
  pushValue .t0 .bool
  return .bool

/-! Operators on strings -/

def concatenate (span : Span) (left right : SlotKind) : Lower SlotKind := do
  textOperands left right
  popValue span .a1
  popValue span .a0
  callRoutine .concatString
  pushValue .a0 .string
  return .string

def compareTexts (span : Span) (op : BinaryOp) (left right : SlotKind) : Lower SlotKind := do
  textOperands left right
  popValue span .a1
  popValue span .a0
  callRoutine .strEquals
  if op = .ne then emit [.xori .a0 .a0 1]
  pushValue .a0 .bool
  return .bool

/-! All operators -/

def arithmetic (span : Span) (op : BinaryOp) (left right : SlotKind) : Lower SlotKind := do
  if ← promoteOperands left right then floatArithmetic span op else intArithmetic span op

def compareNumbers (span : Span) (op : BinaryOp) (left right : SlotKind) : Lower SlotKind := do
  if ← promoteOperands left right then compareFloats span op else compareInts span op

def applyBinary (span : Span) (op : BinaryOp) : Lower SlotKind := do
  let right ← kindAt span 0
  let left ← kindAt span 1
  let unsupported : Lower SlotKind :=
    fail span (.unsupportedOperator op.symbol s!"{left.text} and {right.text}")
  match op.cls with
  | .arithmetic =>
    if op = .add ∧ left.isText ∧ right.isText then concatenate span left right
    else if left.isNumeric ∧ right.isNumeric then arithmetic span op left right
    else unsupported
  | .relational =>
    if left = .char ∧ right = .char then compareInts span op
    else if left.isNumeric ∧ right.isNumeric then compareNumbers span op left right
    else unsupported
  | .equality =>
    if left = right ∧ (left = .char ∨ left = .bool) then compareInts span op
    else if left.isText ∧ right.isText then compareTexts span op left right
    else if left.isNumeric ∧ right.isNumeric then compareNumbers span op left right
    else unsupported
  | .logical => unsupported

def applyUnary (span : Span) (op : UnaryOp) (kind : SlotKind) : Lower SlotKind := do
  match op, kind with
  | .neg, .int =>
    popValue span .t0
    emit [.neg .t0 .t0]
  | .neg, .float =>
    popValue span .t0
    emit [.floatOfBits .ft0 .t0, .fneg .ft0 .ft0, .bitsOfFloat .t0 .ft0]
  | .not, .bool =>
    popValue span .t0
    emit [.xori .t0 .t0 1]
  | op, kind => fail span (.unsupportedOperator op.symbol kind.text)
  pushValue .t0 kind
  return kind

end Arbor.Lowering
