import Arbor.Assembly.Instruction

/-!
This module contains the data section of the assembly: fixed strings, then a region for every array whose
length is known, then the start of the heap.
-/

namespace Arbor.Assembly

inductive FixedString where
  | trueText
  | falseText
  | emptyText
  | comma
  | divisionByZero
  | outOfBounds
  deriving Repr, DecidableEq

namespace FixedString

def label : FixedString → Label
  | trueText => .named "str_true"
  | falseText => .named "str_false"
  | emptyText => .named "str_empty"
  | comma => .named "str_comma"
  | divisionByZero => .named "err_div_zero"
  | outOfBounds => .named "err_bounds"

/--
The text between the quotes, in which an assembler reads a backslash and an `n` as the end of a line.
-/
def quoted : FixedString → String
  | trueText => "true"
  | falseText => "false"
  | emptyText => ""
  | comma => ","
  | divisionByZero => "error: division by zero\\n"
  | outOfBounds => "error: index out of bounds\\n"

def all : List FixedString :=
  [trueText, falseText, emptyText, comma, divisionByZero, outOfBounds]

def text (s : FixedString) : String :=
  s.label.text ++ ": .asciz \"" ++ s.quoted ++ "\"\n"

end FixedString

/--
The lengths of the array regions. A region is a word with the length, and a word for every element.
-/
structure DataSection where
  arrays : List Nat
  deriving Repr, DecidableEq

namespace DataSection

def empty : DataSection := ⟨[]⟩

/--
Reserve a region for the given number of elements. The label is the address of its length; the elements
follow one word after it.
-/
def allocate (d : DataSection) (length : Nat) : Label × DataSection :=
  (.array d.arrays.length, ⟨d.arrays ++ [length]⟩)

def labels (d : DataSection) : List Label :=
  (List.range d.arrays.length).map .array

def regionText (label : Label) (length : Nat) : String :=
  label.text ++ s!": .word {length}"
    ++ (if length = 0 then "" else s!"\n    .space {length * wordBytes}") ++ "\n"

def text (d : DataSection) : String :=
  ".data\n" ++ String.join (FixedString.all.map FixedString.text) ++ ".align 2\n"
    ++ String.join (d.labels.zipWith regionText d.arrays) ++ "heap:"

end DataSection

theorem FixedString.mem_all (s : FixedString) : s ∈ all := by
  cases s <;> decide

end Arbor.Assembly
