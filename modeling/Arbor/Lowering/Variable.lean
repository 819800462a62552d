import Arbor.Lowering.Operator

/-!
This module contains the lowering of variables: reading, assignment, and steps by one. A variable stays where it is
on the stack; the value of an assignment is a copy on top.
-/

namespace Arbor.Lowering

open Assembly

def loadVariable (span : Span) (name : String) : Lower SlotKind := do
  let (offset, slot) ← resolve span name
  emit (.lw .t0 offset .sp :: push .t0)
  pushSlot slot.kind slot.length
  return slot.kind

def storeTop (span : Span) (name : String) : Lower Unit := do
  let (offset, _) ← resolve span name
  emit [.lw .t0 0 .sp, .sw .t0 offset .sp]

/--
Lower an expression where a value of the given kind is asked for. A string literal with one character is
accepted as a char.
-/
def asKind (e : Expr) (x : Lower SlotKind) (target : SlotKind) : Lower Unit := do
  match (if target = .char then singleChar? e else none) with
  | some c => let _ ← pushWord (charCode c) .char
  | none => convertTop e.span (← x) target

def lowerAssign (span : Span) (name : String) (op : AssignOp) (e : Expr) (x : Lower SlotKind) :
    Lower SlotKind := do
  let (_, target) ← resolve span name
  if target.kind.scalar?.isNone then fail span (.unsupported "whole-array assignment")
  match op.combine? with
  | none => asKind e x target.kind
  | some op =>
    let _ ← loadVariable span name
    let _ ← x
    convertTop span (← applyBinary span op) target.kind
  storeTop span name
  return target.kind

def stepLines (op : StepOp) : SlotKind → Option (List Line)
  | .int => some [.addi .t0 .t0 op.delta]
  | .float => some [.floatOfBits .ft0 .t0, .li .t1 op.delta, .floatOfInt .ft1 .t1,
    .fadd .ft0 .ft0 .ft1, .bitsOfFloat .t0 .ft0]
  | _ => none

def lowerStep (span : Span) (name : String) (op : StepOp) : Lower SlotKind := do
  let (offset, slot) ← resolve span name
  match stepLines op slot.kind with
  | none => fail span (.unsupportedOperator op.symbol slot.kind.text)
  | some lines =>
    emit (.lw .t0 offset .sp :: lines ++ [.sw .t0 offset .sp])
    pushValue .t0 slot.kind
    return slot.kind

end Arbor.Lowering
