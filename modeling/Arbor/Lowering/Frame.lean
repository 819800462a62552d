import Arbor.Assembly.Instruction
import Arbor.Lowering.Error
import Arbor.Value.Kind

/-!
This module contains the frame: what is known about the stack of the running program while it is lowered.

Every word that the lowered code pushes has a slot in the frame, and every word it pops takes one away. A variable
is a slot with a name. Its address is the sum of the sizes of the slots above it.
-/

namespace Arbor.Lowering

inductive SlotKind where
  | scalar (s : Scalar)
  | array (elem : Scalar)
  deriving Repr, DecidableEq, Inhabited

/--
A slot of the stack. The depth is that of the scope it was pushed in; the length is the one of an array, where
it is known.
-/
structure Slot where
  kind : SlotKind
  size : Int
  depth : Nat
  name : Option String
  length : Option Nat
  deriving Repr, DecidableEq

structure Frame where
  slots : List Slot
  depth : Nat
  deriving Repr, DecidableEq

namespace SlotKind

@[match_pattern]
abbrev int : SlotKind := scalar .int

@[match_pattern]
abbrev float : SlotKind := scalar .float

@[match_pattern]
abbrev bool : SlotKind := scalar .bool

@[match_pattern]
abbrev char : SlotKind := scalar .char

@[match_pattern]
abbrev string : SlotKind := scalar .string

def text : SlotKind → String
  | scalar s => s.text
  | array elem => elem.text ++ "[]"

def scalar? : SlotKind → Option Scalar
  | scalar s => some s
  | array _ => none

def isNumeric : SlotKind → Bool
  | int | float => true
  | _ => false

def isText : SlotKind → Bool
  | string | char => true
  | _ => false

end SlotKind

def elementCode : Scalar → Int
  | .int => 1
  | .float => 2
  | .bool => 3
  | .char => 4
  | .string => 5

namespace Slot

def isNamed (s : Slot) (name : String) : Bool :=
  s.name == some name

end Slot

def totalSize : List Slot → Int
  | [] => 0
  | s :: rest => s.size + totalSize rest

namespace Frame

def empty : Frame := ⟨[], 0⟩

def push (f : Frame) (kind : SlotKind) (length : Option Nat) : Frame :=
  { f with slots := ⟨kind, Assembly.wordBytes, f.depth, none, length⟩ :: f.slots }

def pop (f : Frame) : Except LoweringErrorKind (Slot × Frame) :=
  match f.slots with
  | [] => .error .stackUnderflow
  | s :: rest => .ok (s, { f with slots := rest })

def peek? (f : Frame) (n : Nat) : Option Slot :=
  f.slots[n]?

def setKind (f : Frame) (n : Nat) (kind : SlotKind) : Frame :=
  { f with slots := f.slots.modify n fun s => { s with kind } }

def nameTop (f : Frame) (name : String) : Except LoweringErrorKind Frame :=
  match f.slots with
  | [] => .error .stackUnderflow
  | s :: rest => .ok { f with slots := { s with name := some name } :: rest }

/--
The newest slot with a name, and how far it is from the top of the stack.
-/
def resolve? (f : Frame) (name : String) : Option (Int × Slot) :=
  go 0 f.slots
where
  /-- Search the slots below the given offset. -/
  go (offset : Int) : List Slot → Option (Int × Slot)
    | [] => none
    | s :: rest => if s.isNamed name then some (offset, s) else go (offset + s.size) rest

def currentScope (f : Frame) : List Slot :=
  f.slots.takeWhile fun s => s.depth == f.depth

def isDeclared (f : Frame) (name : String) : Bool :=
  f.currentScope.any fun s => s.isNamed name

def openScope (f : Frame) : Frame :=
  { f with depth := f.depth + 1 }

/--
Leave the current scope, and with it its slots. The result is how many bytes they take up.
-/
def closeScope (f : Frame) : Int × Frame :=
  (totalSize f.currentScope, ⟨f.slots.dropWhile fun s => s.depth == f.depth, f.depth - 1⟩)

def bytes (f : Frame) : Int :=
  totalSize f.slots

end Frame

end Arbor.Lowering
