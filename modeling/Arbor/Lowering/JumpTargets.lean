import Arbor.Assembly.Instruction

/-!
This module contains the places that `break` and `continue` jump to.
-/

namespace Arbor.Lowering

/--
A label to jump to, and how many bytes the code at the label expects on the stack.
-/
structure JumpTarget where
  label : Assembly.Label
  level : Int
  deriving Repr, DecidableEq

/--
The targets of `break` and of `continue` for the constructs around a statement, innermost first.
-/
structure JumpTargets where
  breaks : List JumpTarget
  continues : List JumpTarget
  deriving Repr, DecidableEq

namespace JumpTargets

def empty : JumpTargets := ⟨[], []⟩

def pushBreak (j : JumpTargets) (t : JumpTarget) : JumpTargets :=
  { j with breaks := t :: j.breaks }

def pushContinue (j : JumpTargets) (t : JumpTarget) : JumpTargets :=
  { j with continues := t :: j.continues }

def popBreak (j : JumpTargets) : JumpTargets :=
  { j with breaks := j.breaks.tail }

def popContinue (j : JumpTargets) : JumpTargets :=
  { j with continues := j.continues.tail }

def break? (j : JumpTargets) : Option JumpTarget :=
  j.breaks.head?

def continue? (j : JumpTargets) : Option JumpTarget :=
  j.continues.head?

def isEmpty (j : JumpTargets) : Bool :=
  j.breaks.isEmpty && j.continues.isEmpty

end JumpTargets

end Arbor.Lowering
