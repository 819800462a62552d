import Arbor.Lowering.Variable

/-!
This module contains the lowering of array accesses. A variable that holds an array is the address of its first
element; the length is in the word before.
-/

namespace Arbor.Lowering

open Assembly

def arrayElement (span : Span) (name : String) : Lower Scalar := do
  let (_, slot) ← resolve span name
  match slot.kind with
  | .array elem => return elem
  | .scalar _ => fail span (.notAnArray name)

def loadArray (span : Span) (name : String) (rd : Register) : Lower Unit := do
  let (offset, _) ← resolve span name
  emit [.lw rd offset .sp]

/--
Turn the index in `t0` into the address of the element, unless it is out of bounds. It changes `t1`, `a0`, `a1`
and `a7`.
-/
def elementAddress (span : Span) (array : String) : Lower Unit := do
  loadArray span array .t1
  emit [.mv .a0 .t0, .lw .a1 (-wordBytes) .t1]
  callRoutine .checkBounds
  emit [.slli .t0 .t0 2, .add .t0 .t1 .t0]

def lowerIndex (span : Span) (array : String) (i : Expr) (x : Lower SlotKind) : Lower SlotKind := do
  let elem ← arrayElement span array
  asKind i x .int
  popValue span .t0
  elementAddress span array
  emit [.lw .t0 0 .t0]
  pushValue .t0 (.scalar elem)
  return .scalar elem

/--
Assign to an element, given how its index and the value are lowered. The index stays below the value until the
value is stored; then the value takes its place.
-/
def lowerIndexAssign (span : Span) (array : String) (i : Expr) (x : Lower SlotKind) (op : AssignOp)
    (e : Expr) (y : Lower SlotKind) : Lower SlotKind := do
  let target : SlotKind := .scalar (← arrayElement span array)
  asKind i x .int
  match op.combine? with
  | none => asKind e y target
  | some op =>
    emit [.lw .t0 0 .sp]
    elementAddress span array
    emit [.lw .t0 0 .t0]
    pushValue .t0 target
    let _ ← y
    convertTop span (← applyBinary span op) target
  emit [.lw .t2 0 .sp, .lw .t0 wordBytes .sp]
  elementAddress span array
  emit [.sw .t2 0 .t0, .sw .t2 wordBytes .sp]
  discard span
  setKindAt 0 target
  return target

def lowerIndexOf (span : Span) (array : String) (e : Expr) (x : Lower SlotKind) : Lower SlotKind := do
  let elem ← arrayElement span array
  asKind e x (.scalar elem)
  popValue span .a1
  loadArray span array .a0
  emit [.li .a2 (elementCode elem)]
  callRoutine .arrayIndexOf
  pushValue .a0 .int
  return .int

def lowerLength (span : Span) (array : String) : Lower SlotKind := do
  let _ ← arrayElement span array
  loadArray span array .t0
  emit [.lw .t0 (-wordBytes) .t0]
  pushValue .t0 .int
  return .int

def lowerJoin (span : Span) (array : String) : Lower SlotKind := do
  let elem ← arrayElement span array
  loadArray span array .a0
  emit [.li .a1 (elementCode elem)]
  callRoutine .arrayJoin
  pushValue .a0 .string
  return .string

end Arbor.Lowering
