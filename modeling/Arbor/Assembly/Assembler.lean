import Arbor.Assembly.Instruction

/-!
This module contains the buffer that lines are written to. It decides about each comment whether it is kept.
-/

namespace Arbor.Assembly

structure Assembler where
  lines : Array Line
  comments : Bool

namespace Assembler

def start (comments : Bool) : Assembler :=
  ⟨#[], comments⟩

def push (a : Assembler) (l : Line) : Assembler :=
  { a with lines := a.lines.push l }

def comment (a : Assembler) (text : String) : Assembler :=
  if a.comments then a.push (.comment text) else a

def add (a : Assembler) : Line → Assembler
  | .comment text => a.comment text
  | l => a.push l

def write (a : Assembler) (lines : List Line) : Assembler :=
  lines.foldl add a

end Assembler

def Line.shown (comments : Bool) (lines : List Line) : List Line :=
  if comments then lines else lines.filter fun l => !l.isComment

@[simp]
theorem Line.shown_true (lines : List Line) : shown true lines = lines := by
  simp [shown]

theorem Line.shown_append (comments : Bool) (xs ys : List Line) :
    shown comments (xs ++ ys) = shown comments xs ++ shown comments ys := by
  cases comments <;> simp [shown]

@[simp]
theorem Line.shown_release (comments : Bool) (bytes : Int) : shown comments (release bytes) = release bytes := by
  unfold release
  split <;> cases comments <;> rfl

namespace Assembler

variable {a : Assembler} {l : Line} {xs ys : List Line}

@[simp]
theorem write_nil : a.write [] = a :=
  rfl

@[simp]
theorem write_write : (a.write xs).write ys = a.write (xs ++ ys) := by
  simp [write]

theorem comments_add : (a.add l).comments = a.comments := by
  cases l <;> simp [add, comment, push, apply_ite]

theorem lines_add : (a.add l).lines.toList = a.lines.toList ++ Line.shown a.comments [l] := by
  cases l with
  | comment text => cases h : a.comments <;> simp [add, comment, push, h, Line.shown, Line.isComment]
  | _ => cases h : a.comments <;> simp [add, push, Line.shown, Line.isComment]

@[simp]
theorem comments_write : (a.write xs).comments = a.comments := by
  induction xs generalizing a with
  | nil => rfl
  | cons l rest ih => exact ih.trans comments_add

@[simp]
theorem lines_write : (a.write xs).lines.toList = a.lines.toList ++ Line.shown a.comments xs := by
  induction xs generalizing a with
  | nil => cases h : a.comments <;> simp [Line.shown]
  | cons l rest ih =>
    change ((a.add l).write rest).lines.toList = _
    rw [ih, comments_add, lines_add, List.append_assoc, ← Line.shown_append, List.singleton_append]

end Assembler

end Arbor.Assembly
