import Arbor.Assembly.Data

/-!
This module contains the routines of the runtime and the lines that several of them share.

A routine takes its arguments in `a0`, `a1` and `a2`, and leaves its result in `a0`. Floats are passed as their
bits. A routine that writes to the heap leaves the heap pointer at the start of a word.
-/

namespace Arbor.Assembly

inductive Routine where
  | concatString
  | strEquals
  | toUpperCase
  | toLowerCase
  | intToString
  | floatToString
  | boolToString
  | charToString
  | parseInt
  | parseFloat
  | checkDivZero
  | checkBounds
  | printArray
  | arrayIndexOf
  | arrayJoin
  deriving Repr, DecidableEq, Inhabited

namespace Routine

def name : Routine → String
  | concatString => "concatString"
  | strEquals => "strEquals"
  | toUpperCase => "toUpperCase"
  | toLowerCase => "toLowerCase"
  | intToString => "intToString"
  | floatToString => "floatToString"
  | boolToString => "boolToString"
  | charToString => "charToString"
  | parseInt => "parseInt"
  | parseFloat => "parseFloat"
  | checkDivZero => "checkDivZero"
  | checkBounds => "checkBounds"
  | printArray => "printArray"
  | arrayIndexOf => "arrayIndexOf"
  | arrayJoin => "arrayJoin"

def all : List Routine :=
  [concatString, strEquals, toUpperCase, toLowerCase, intToString, floatToString, boolToString,
    charToString, parseInt, parseFloat, checkDivZero, checkBounds, printArray, arrayIndexOf, arrayJoin]

def ofName? (name : String) : Option Routine :=
  all.find? fun r => r.name == name

def label (r : Routine) : Label :=
  .named r.name

def place (r : Routine) (name : String) : Label :=
  .named (r.name ++ "_" ++ name)

end Routine

def charCode (c : Char) : Int :=
  c.toNat

def appendByte (rs : Register) : List Line :=
  [.sb rs 0 .hp, .addi .hp .hp 1]

def alignHeap : List Line :=
  [.addi .hp .hp 3, .andi .hp .hp (-4)]

/--
End the string that was written to the heap from `start` on, and leave its address in `a0`.
-/
def finishString (start : Register) : List Line :=
  List.flatten [appendByte .zero, [.mv .a0 start], alignHeap]

/--
Append the string at `source` to the heap. Afterwards `source` is at the end of the string.
-/
def copyBytes (source : Register) (top done : Label) : List Line :=
  List.flatten [[.label top, .lb .t1 0 source, .beqz .t1 done], appendByte .t1,
    [.addi source source 1, .j top, .label done]]

def failWith (message : FixedString) : List Line :=
  List.flatten [[.la .a0 message.label], syscall 4, [.li .a0 1], syscall 93]

theorem Routine.mem_all (r : Routine) : r ∈ all := by
  cases r <;> decide

@[simp]
theorem Routine.ofName?_name (r : Routine) : ofName? r.name = some r := by
  cases r <;> decide

end Arbor.Assembly
