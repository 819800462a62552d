import Arbor.Proofs.Lowering.Closed
import Arbor.Proofs.Lowering.Effects

/-!
This module contains the inertness of comments: whether they are kept changes neither what is accepted nor any line of
a file that is not a comment, and in the text of a file each comment is a line of its own.

Two runs of the generator, one that may keep comments and one that does not, are compared step by step: their states
differ in nothing but the comments that were written.
-/

namespace Arbor

namespace Assembly

/-! Assemblers with and without comments -/

theorem Line.shown_false_shown {comments : Bool} {c : List Line} :
    shown false (shown comments c) = shown false c := by
  cases comments <;> simp [shown]

/--
The second assembler keeps no comments, and has the other lines of the first one.
-/
structure Assembler.Trims (a b : Assembler) : Prop where
  comments : b.comments = false
  lines : b.lines.toList = Line.shown false a.lines.toList

namespace Assembler.Trims

variable {a b : Assembler} {l : Line} {c : List Line} {rs : List Routine}

theorem start (comments : Bool) : (Assembler.start comments).Trims (.start false) :=
  ⟨rfl, rfl⟩

theorem add (h : a.Trims b) : (a.add l).Trims (b.add l) := by
  refine ⟨comments_add.trans h.comments, ?_⟩
  rw [lines_add, lines_add, h.lines, h.comments, Line.shown_append, Line.shown_false_shown]

theorem write (h : a.Trims b) : (a.write c).Trims (b.write c) := by
  induction c generalizing a b with
  | nil => exact h
  | cons l rest ih => exact ih h.add

theorem routines (h : a.Trims b) : (rs.foldl Routine.write a).Trims (rs.foldl Routine.write b) := by
  induction rs generalizing a b with
  | nil => exact h
  | cons r rest ih => exact ih h.write

end Assembler.Trims

end Assembly

namespace Lowering

open Assembly

variable {config : GeneratorConfig} {p : Program} {file : File} {l : Line}

/-! Clean lines -/

theorem isWord_routine (r : Routine) : r.label.IsWord := by
  cases r <;> decide

theorem isWord_fixedString (s : FixedString) : s.label.IsWord := by
  cases s <;> decide

theorem clean_routine : ∀ r ∈ Routine.all, ∀ l ∈ r.lines, l.Clean := by
  decide +kernel

theorem isWord_of_label_mem_main (h : generate config p = .ok file) {t : Label} (ht : .label t ∈ file.main) :
    t.IsWord := by
  obtain ⟨k, rfl⟩ := exists_number_of_mem_main h (mem_placed.mpr ht)
  exact Label.isWord_numbered k

theorem isWord_of_address_main (h : generate config p = .ok file) {t : Label} (hl : l ∈ file.main)
    (ht : l.address? = some t) : t.IsWord := by
  have hrefers := refers_main h l hl
  unfold Line.address? at ht
  split at ht
  · cases ht
    rcases hrefers with ⟨s, rfl⟩ | hmem
    · exact isWord_fixedString s
    · obtain ⟨k, -, rfl⟩ := List.mem_map.mp hmem
      exact Label.isWord_array k
  · cases ht

theorem clean_of_mem_main (h : generate config p = .ok file) (hl : l ∈ file.main) : l.Clean := by
  cases l with
  | comment text => exact refers_main h _ hl
  | label t =>
    intro t' ht'
    obtain rfl : t' = t := by simpa [Line.labels, Line.label?, Line.target?, Line.callee?, Line.address?] using ht'
    exact isWord_of_label_mem_main h hl
  | instruction i =>
    intro t ht
    simp only [Line.labels, List.mem_append, Option.mem_toList] at ht
    rcases ht with ((ht | ht) | ht) | ht
    · cases ht
    · exact isWord_of_label_mem_main h (target_main h hl ht)
    · obtain ⟨r, -, rfl⟩ := exists_called_of_mem_main h hl ht
      exact isWord_routine r
    · exact isWord_of_address_main h hl ht

theorem clean_of_generate (h : generate config p = .ok file) : ∀ l ∈ file.main ++ file.runtime, l.Clean := by
  intro l hl
  rcases List.mem_append.mp hl with hl | hl
  · exact clean_of_mem_main h hl
  · obtain ⟨r, -, hl⟩ := exists_routine_of_mem_runtime h hl
    exact clean_routine r r.mem_all l hl

/-! Two runs -/

/--
The second of two states keeps no comments, and is the first one but for those.
-/
structure State.Coupled (s t : State) : Prop where
  assembler : s.assembler.Trims t.assembler
  frame : t.frame = s.frame
  targets : t.targets = s.targets
  routines : t.routines = s.routines
  data : t.data = s.data
  nextLabel : t.nextLabel = s.nextLabel

def EndAlike {α : Type} : EStateM.Result LoweringError State α → EStateM.Result LoweringError State α → Prop
  | .ok a s, .ok b t => b = a ∧ s.Coupled t
  | .error e s, .error e' t => e' = e ∧ s.Coupled t
  | _, _ => False

/--
The runs of a computation from coupled states end alike.
-/
def RunsAlike (α : Type) (x : Lower α) : Prop :=
  ∀ s t, s.Coupled t → EndAlike (x s) (x t)

section RunsAlike

variable {α β : Type} {x : Lower α}

theorem runsAlike_pure (a : α) : RunsAlike α (pure a) :=
  fun _ _ h => ⟨rfl, h⟩

theorem runsAlike_throw (e : LoweringError) : RunsAlike α (throw e) :=
  fun _ _ h => ⟨rfl, h⟩

theorem RunsAlike.bind {f : α → Lower β} (hx : RunsAlike α x) (hf : ∀ a, RunsAlike β (f a)) :
    RunsAlike β (x >>= f) := by
  intro s t h
  have hx := hx s t h
  change EndAlike (EStateM.bind x f s) (EStateM.bind x f t)
  unfold EStateM.bind
  cases hs : x s with
  | ok a s' =>
    cases ht : x t with
    | ok b t' =>
      rw [hs, ht] at hx
      obtain ⟨rfl, h'⟩ := hx
      exact hf b s' t' h'
    | error e t' =>
      rw [hs, ht] at hx
      exact hx.elim
  | error e s' =>
    cases ht : x t with
    | ok b t' =>
      rw [hs, ht] at hx
      exact hx.elim
    | error e' t' =>
      rw [hs, ht] at hx
      exact hx

theorem runsAlike_liftAt (span : Span) (r : Except LoweringErrorKind α) : RunsAlike α (liftAt span r) := by
  cases r with
  | ok a => exact runsAlike_pure a
  | error kind => exact runsAlike_throw _

/-! The steps of the generator -/

theorem runsAlike_emit (lines : List Line) : RunsAlike Unit (emit lines) :=
  fun _ _ h => ⟨rfl, h.assembler.write, h.frame, h.targets, h.routines, h.data, h.nextLabel⟩

theorem runsAlike_freshLabel : RunsAlike Label freshLabel :=
  fun _ _ h => ⟨congrArg Label.numbered h.nextLabel, h.assembler, h.frame, h.targets, h.routines, h.data,
    congrArg (· + 1) h.nextLabel⟩

theorem runsAlike_callRoutine (r : Routine) : RunsAlike Unit (callRoutine r) :=
  fun _ _ h => ⟨rfl, h.assembler.write, h.frame, h.targets, congrArg (·.request r) h.routines, h.data, h.nextLabel⟩

theorem runsAlike_loadRegion (length : Nat) : RunsAlike Unit (loadRegion length) := by
  intro s t h
  refine ⟨rfl, ?_, h.frame, h.targets, h.routines, congrArg (fun d => (d.allocate length).2) h.data, h.nextLabel⟩
  change (s.assembler.write [.la .t0 (s.data.allocate length).1, .addi .t0 .t0 wordBytes]).Trims
    (t.assembler.write [.la .t0 (t.data.allocate length).1, .addi .t0 .t0 wordBytes])
  rw [h.data]
  exact h.assembler.write

theorem runsAlike_frame : RunsAlike Frame frame :=
  fun _ _ h => ⟨h.frame, h⟩

theorem runsAlike_targets : RunsAlike JumpTargets targets :=
  fun _ _ h => ⟨h.targets, h⟩

theorem runsAlike_setFrame (f : Frame) : RunsAlike Unit (setFrame f) :=
  fun _ _ h => ⟨rfl, h.assembler, rfl, h.targets, h.routines, h.data, h.nextLabel⟩

theorem runsAlike_popSlot (span : Span) : RunsAlike Slot (popSlot span) :=
  runsAlike_frame.bind fun f => (runsAlike_liftAt span f.pop).bind fun popped =>
    (runsAlike_setFrame popped.2).bind fun _ => runsAlike_pure popped.1

theorem runsAlike_closeScope : RunsAlike Unit closeScope :=
  runsAlike_frame.bind fun f => (runsAlike_setFrame f.closeScope.2).bind fun _ => runsAlike_emit _

theorem runsAlike_withBreak {x : Lower Unit} (target : JumpTarget) (hx : RunsAlike Unit x) :
    RunsAlike Unit (withBreak target x) := by
  intro s t h
  have hx := hx { s with targets := s.targets.pushBreak target } { t with targets := t.targets.pushBreak target }
    ⟨h.assembler, h.frame, congrArg (·.pushBreak target) h.targets, h.routines, h.data, h.nextLabel⟩
  unfold withBreak
  cases hs : x { s with targets := s.targets.pushBreak target } <;>
    cases ht : x { t with targets := t.targets.pushBreak target } <;> rw [hs, ht] at hx
  case ok.ok | error.error =>
    obtain ⟨rfl, h'⟩ := hx
    exact ⟨rfl, h'.assembler, h'.frame, congrArg JumpTargets.popBreak h'.targets, h'.routines, h'.data, h'.nextLabel⟩
  all_goals exact hx.elim

theorem runsAlike_withContinue {x : Lower Unit} (target : JumpTarget) (hx : RunsAlike Unit x) :
    RunsAlike Unit (withContinue target x) := by
  intro s t h
  have hx := hx { s with targets := s.targets.pushContinue target }
    { t with targets := t.targets.pushContinue target }
    ⟨h.assembler, h.frame, congrArg (·.pushContinue target) h.targets, h.routines, h.data, h.nextLabel⟩
  unfold withContinue
  cases hs : x { s with targets := s.targets.pushContinue target } <;>
    cases ht : x { t with targets := t.targets.pushContinue target } <;> rw [hs, ht] at hx
  case ok.ok | error.error =>
    obtain ⟨rfl, h'⟩ := hx
    exact ⟨rfl, h'.assembler, h'.frame, congrArg JumpTargets.popContinue h'.targets, h'.routines, h'.data,
      h'.nextLabel⟩
  all_goals exact hx.elim

/--
All that lowering does ends alike with comments and without.
-/
theorem closed_runsAlike : Closed RunsAlike where
  pure := runsAlike_pure
  throw := runsAlike_throw
  bind := RunsAlike.bind
  frame := runsAlike_frame
  targets := runsAlike_targets
  emit := runsAlike_emit
  freshLabel := runsAlike_freshLabel
  callRoutine := runsAlike_callRoutine
  loadRegion := runsAlike_loadRegion
  pushSlot _ _ := runsAlike_frame.bind fun _ => runsAlike_setFrame _
  popSlot := runsAlike_popSlot
  nameTop span name := runsAlike_frame.bind fun f => (runsAlike_liftAt span (f.nameTop name)).bind runsAlike_setFrame
  setKindAt _ _ := runsAlike_frame.bind fun _ => runsAlike_setFrame _
  openScope := runsAlike_frame.bind fun _ => runsAlike_setFrame _
  closeScope := runsAlike_closeScope
  withBreak := runsAlike_withBreak
  withContinue := runsAlike_withContinue

end RunsAlike

/-! Files with and without comments -/

theorem State.Coupled.start (comments : Bool) : (State.start comments).Coupled (.start false) :=
  ⟨.start comments, rfl, rfl, rfl, rfl, rfl⟩

theorem State.Coupled.finish {s t : State} (h : s.Coupled t) (limit : Nat) :
    Generator.finish ⟨⟨false, limit⟩, t⟩ = (Generator.finish ⟨⟨true, limit⟩, s⟩).uncommented := by
  have hmain := (h.assembler.write (c := release s.frame.bytes)).lines
  have hruntime : (s.routines.used.foldl Routine.write (.start true)).Trims
      (s.routines.used.foldl Routine.write (.start false)) := (Assembler.Trims.start true).routines
  simp only [Generator.finish, File.uncommented, h.frame, h.data, h.routines, hmain, RoutineSet.materialize,
    hruntime.lines]

/--
Comments are inert: without them the same programs are refused for the same reasons, and the file of a program that is
accepted has all but the comments of the file with them. The text of the one file is the text of the other one without
the lines that show a comment, whatever the literals of the program are.
-/
theorem generate_uncommented (limit : Nat) (p : Program) :
    generate ⟨false, limit⟩ p = (generate ⟨true, limit⟩ p).map File.uncommented ∧
    ∀ file, generate ⟨true, limit⟩ p = .ok file → withoutComments file.text = file.uncommented.text := by
  constructor
  · unfold generate Generator.lower Generator.start
    have hruns : RunsAlike Unit (lowerStmts limit p.statements) := closed_runsAlike.lowerStmts p.statements
    have halike := hruns _ _ (State.Coupled.start true)
    dsimp only
    cases hs : lowerStmts limit p.statements (State.start true) <;>
      cases ht : lowerStmts limit p.statements (State.start false) <;> rw [hs, ht] at halike
    case ok.ok => exact congrArg Except.ok (halike.2.finish limit)
    case error.error => exact congrArg Except.error halike.1
    all_goals exact halike.elim
  · intro file h
    exact File.withoutComments_text (clean_of_generate h)

def breakingProgram : Program where
  statements := [
    .varDecl .unplaced .string "s" (some (.literal .unplaced (.string "a\\n    ecall\\\"b")))]

theorem generate_uncommented_breakingProgram :
    ∃ file, generate ⟨true, 16⟩ breakingProgram = .ok file ∧
      file.main.head? = some (.comment "string \"a\\n    ecall\\\"b\"") ∧
      generate ⟨false, 16⟩ breakingProgram = .ok file.uncommented ∧
      withoutComments file.text = file.uncommented.text := by
  have hhead : (generate ⟨true, 16⟩ breakingProgram).toOption.map (fun file => file.main.head?) =
      some (some (.comment "string \"a\\n    ecall\\\"b\"")) := by
    decide +kernel
  have hinert := generate_uncommented 16 breakingProgram
  cases h : generate ⟨true, 16⟩ breakingProgram with
  | error e =>
    rw [h] at hhead
    cases hhead
  | ok file =>
    rw [h] at hhead hinert
    exact ⟨file, rfl, Option.some.inj hhead, hinert.1, hinert.2 file rfl⟩

end Lowering

end Arbor
