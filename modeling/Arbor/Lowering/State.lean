import Arbor.Assembly.Routine
import Arbor.Lowering.Frame
import Arbor.Lowering.JumpTargets

/-!
This module contains the computations that lower a tree: they write lines, keep the frame in step with the
stack, and end with a result or with an error.

A computation that fails still has a state. What it wrote and pushed before is there when the next program is
lowered.
-/

namespace Arbor.Lowering

open Assembly

/--
What lowering changes: the lines written so far and whether comments are kept, the frame, the targets of jumps, the
routines in use, the arrays of the data section, and the number of the next label.
-/
structure State where
  assembler : Assembler
  frame : Frame
  targets : JumpTargets
  routines : RoutineSet
  data : DataSection
  nextLabel : Nat

abbrev Lower := EStateM LoweringError State

namespace State

def start (comments : Bool) : State :=
  ⟨.start comments, .empty, .empty, .empty, .empty, 0⟩

end State

def fail {α : Type} (span : Span) (kind : LoweringErrorKind) : Lower α :=
  throw ⟨kind, span⟩

def liftAt {α : Type} (span : Span) : Except LoweringErrorKind α → Lower α
  | .ok a => pure a
  | .error kind => fail span kind

/-! Writing -/

def emit (lines : List Line) : Lower Unit :=
  modify fun s => { s with assembler := s.assembler.write lines }

def freshLabel : Lower Label := do
  let s ← get
  set { s with nextLabel := s.nextLabel + 1 }
  return .numbered s.nextLabel

def freshLabels {α : Type} : List α → Lower (List Label)
  | [] => return []
  | _ :: rest => do
    let label ← freshLabel
    return label :: (← freshLabels rest)

def callRoutine (r : Routine) : Lower Unit := do
  modify fun s => { s with routines := s.routines.request r }
  emit [.jal r.label]

def loadRegion (length : Nat) : Lower Unit := do
  let s ← get
  let (label, data) := s.data.allocate length
  set { s with data }
  emit [.la .t0 label, .addi .t0 .t0 wordBytes]

def targets : Lower JumpTargets :=
  return (← get).targets

/-! The stack and its frame -/

def frame : Lower Frame :=
  return (← get).frame

def setFrame (frame : Frame) : Lower Unit :=
  modify fun s => { s with frame }

def pushSlot (kind : SlotKind) (length : Option Nat) : Lower Unit := do
  setFrame ((← frame).push kind length)

def popSlot (span : Span) : Lower Slot := do
  let (slot, frame) ← liftAt span (← frame).pop
  setFrame frame
  return slot

def nameTop (span : Span) (name : String) : Lower Unit := do
  setFrame (← liftAt span ((← frame).nameTop name))

def pushValue (rs : Register) (kind : SlotKind) : Lower Unit := do
  emit (push rs)
  pushSlot kind none

def popValue (span : Span) (rd : Register) : Lower Unit := do
  let _ ← popSlot span
  emit (pop rd)

def discard (span : Span) : Lower Unit := do
  let slot ← popSlot span
  emit (release slot.size)

def resolve (span : Span) (name : String) : Lower (Int × Slot) := do
  match (← frame).resolve? name with
  | some found => return found
  | none => fail span (.unresolvedVariable name)

def kindAt (span : Span) (n : Nat) : Lower SlotKind := do
  match (← frame).peek? n with
  | some slot => return slot.kind
  | none => fail span .stackUnderflow

def setKindAt (n : Nat) (kind : SlotKind) : Lower Unit := do
  setFrame ((← frame).setKind n kind)

def level : Lower Int :=
  return (← frame).bytes

/-! Scopes -/

def openScope : Lower Unit := do
  setFrame (← frame).openScope

def closeScope : Lower Unit := do
  let (bytes, frame) := (← frame).closeScope
  setFrame frame
  emit (release bytes)

/--
Lower inside a new scope. After an error the scope stays open.
-/
def inScope (x : Lower Unit) : Lower Unit := do
  openScope
  x
  closeScope

/--
Lower a branch or the body of a loop, which has a scope of its own also if it is not a block.
-/
def asBody (isBlock : Bool) (x : Lower Unit) : Lower Unit :=
  if isBlock then x else inScope x

/--
Lower with a target for `break`, whether that succeeds or not.
-/
def withBreak (target : JumpTarget) (x : Lower Unit) : Lower Unit := fun s =>
  match x { s with targets := s.targets.pushBreak target } with
  | .ok a s => .ok a { s with targets := s.targets.popBreak }
  | .error e s => .error e { s with targets := s.targets.popBreak }

def withContinue (target : JumpTarget) (x : Lower Unit) : Lower Unit := fun s =>
  match x { s with targets := s.targets.pushContinue target } with
  | .ok a s => .ok a { s with targets := s.targets.popContinue }
  | .error e s => .error e { s with targets := s.targets.popContinue }

end Arbor.Lowering
