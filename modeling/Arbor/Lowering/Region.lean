import Arbor.Lowering.State

/-!
This module contains the code that makes and fills arrays. An array is a word with its length, and a word for
every element. The address of the first element is left in `t0`.

Arrays of a known length are regions of the data section. Short ones are filled and copied word by word, longer
ones by a loop.
-/

namespace Arbor.Lowering

open Assembly

def heapRegion : List Line :=
  [.sw .t2 0 .hp, .addi .t0 .hp wordBytes, .slli .t3 .t2 2, .add .hp .t0 .t3]

def unrolledFill (length : Nat) : List Line :=
  (List.range length).map fun (i : Nat) => .sw .t1 (i * wordBytes) .t0

def fillLoop (top done : Label) : List Line :=
  [.mv .t3 .t0, .li .t4 0, .label top, .bge .t4 .t2 done, .sw .t1 0 .t3, .addi .t3 .t3 wordBytes,
    .addi .t4 .t4 1, .j top, .label done]

def unrolledCopy (length : Nat) : List Line :=
  (List.range length).flatMap fun (i : Nat) =>
    [.lw .t2 (i * wordBytes) .t1, .sw .t2 (i * wordBytes) .t0]

def copyLoop (top done : Label) : List Line :=
  [.li .t4 0, .label top, .bge .t4 .t2 done, .slli .t3 .t4 2, .add .t5 .t1 .t3, .lw .t5 0 .t5,
    .add .t3 .t0 .t3, .sw .t5 0 .t3, .addi .t4 .t4 1, .j top, .label done]

def emitLoop (lines : Label → Label → List Line) : Lower Unit := do
  let top ← freshLabel
  let done ← freshLabel
  emit (lines top done)

def emitUpTo (limit length : Nat) (unrolled : Nat → List Line) (lines : Label → Label → List Line) :
    Lower Unit :=
  if length ≤ limit then emit (unrolled length)
  else do
    emit [.li .t2 length]
    emitLoop lines

def pushArray (elem : Scalar) (length : Option Nat) : Lower Unit := do
  emit (push .t0)
  pushSlot (.array elem) length

end Arbor.Lowering
