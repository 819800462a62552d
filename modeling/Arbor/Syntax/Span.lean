/-!
This module contains source positions: where in a source file a node of a tree was written.
-/

namespace Arbor

structure Position where
  line : UInt32
  column : UInt32
  offset : UInt32
  deriving Repr, DecidableEq, Inhabited

structure Span where
  file : String
  start : Position
  stop : Position
  deriving Repr, DecidableEq, Inhabited

namespace Position

def zero : Position := ⟨0, 0, 0⟩

def text (p : Position) : String :=
  toString p.line.toNat ++ ":" ++ toString p.column.toNat

end Position

namespace Span

def unplaced : Span := ⟨"", .zero, .zero⟩

/--
A span is unplaced if both of its ends are zero, whatever its file.
-/
def isUnplaced (s : Span) : Bool :=
  s.start == .zero && s.stop == .zero

def byteRange (s : Span) : Nat × Nat :=
  (s.start.offset.toNat, max s.stop.offset.toNat (s.start.offset.toNat + 1))

def text (s : Span) : String :=
  if s.file.isEmpty then s.start.text else s.file ++ ":" ++ s.start.text

end Span

end Arbor
