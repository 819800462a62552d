import Arbor.Lowering.Expression

/-!
This module contains the lowering of `print`. The values are separated by spaces and ended by a new line.
-/

namespace Arbor.Lowering

open Assembly

def printCode (c : Char) : List Line :=
  .li .a0 (charCode c) :: syscall 11

def printTop (span : Span) : SlotKind → Lower Unit
  | .int => do
    popValue span .a0
    emit (syscall 1)
  | .float => do
    popValue span .t0
    emit (.floatOfBits .fa0 .t0 :: syscall 2)
  | .string => do
    popValue span .a0
    emit (syscall 4)
  | .char => do
    popValue span .a0
    emit (syscall 11)
  | .bool => do
    let chosen ← freshLabel
    popValue span .t0
    emit (.la .a0 FixedString.trueText.label :: .bnez .t0 chosen
      :: .la .a0 FixedString.falseText.label :: .label chosen :: syscall 4)
  | .array elem => do
    popValue span .a0
    emit [.li .a1 (elementCode elem)]
    callRoutine .printArray

def printValues (span : Span) (separator : List Line) : List Expr → Lower Unit
  | [] => return ()
  | e :: rest => do
    emit separator
    printTop span (← lowerExpr e)
    printValues span (printCode ' ') rest

def lowerPrint (span : Span) (args : List Expr) : Lower Unit := do
  emit [.comment "print"]
  printValues span [] args
  emit (printCode '\n')

end Arbor.Lowering
