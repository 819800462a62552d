import Arbor.Lowering.Statement
import Arbor.Proofs.Lowering.Frame

/-!
This module contains what it means that a computation of the lowering succeeded: every primitive has a lemma that
says in which state it ends, so that a success can be read backwards from the last step to the first.
-/

namespace Arbor.Lowering

open Assembly

def routine? : Line → Option Routine
  | .jal (.named name) => Routine.ofName? name
  | _ => none

def called (lines : List Line) : List Routine :=
  lines.filterMap routine?

@[simp]
theorem called_nil : called [] = [] :=
  rfl

@[simp]
theorem called_cons (l : Line) (rest : List Line) :
    called (l :: rest) = (routine? l).toList ++ called rest := by
  unfold called
  rw [List.filterMap_cons]
  cases routine? l <;> rfl

@[simp]
theorem called_append (xs ys : List Line) : called (xs ++ ys) = called xs ++ called ys := by
  unfold called
  exact List.filterMap_append

@[simp]
theorem routine?_jal (r : Routine) : routine? (.jal r.label) = some r :=
  Routine.ofName?_name r

@[simp]
theorem routine?_label (l : Label) : routine? (.label l) = none :=
  rfl

@[simp]
theorem routine?_comment (text : String) : routine? (.comment text) = none :=
  rfl

@[simp]
theorem routine?_instruction {i : Instruction} (h : ∀ l, i ≠ .jal l) :
    routine? (.instruction i) = none := by
  unfold routine?
  split
  · next heq =>
    cases heq
    exact (h _ rfl).elim
  · rfl

theorem called_eq_nil {lines : List Line} (h : ∀ l ∈ lines, routine? l = none) : called lines = [] :=
  List.filterMap_eq_nil_iff.mpr h

@[simp]
theorem called_push (rs : Register) : called (push rs) = [] := by
  simp [push]

@[simp]
theorem called_pop (rd : Register) : called (pop rd) = [] := by
  simp [pop]

@[simp]
theorem called_release (bytes : Int) : called (release bytes) = [] := by
  unfold release
  split <;> rfl

@[simp]
theorem called_syscall (service : Int) : called (syscall service) = [] := by
  simp [syscall]

@[simp]
theorem called_intOperation (op : BinaryOp) : called (intOperation op) = [] := by
  cases op <;> rfl

@[simp]
theorem called_intComparison (op : BinaryOp) : called (intComparison op) = [] := by
  cases op <;> rfl

@[simp]
theorem called_floatOperation (op : BinaryOp) : called (floatOperation op) = [] := by
  cases op <;> rfl

@[simp]
theorem called_floatComparison (op : BinaryOp) : called (floatComparison op) = [] := by
  cases op <;> rfl

@[simp]
theorem routine?_loadZero (rd : Register) (s : Scalar) : routine? (loadZero rd s) = none := by
  cases s <;> rfl

@[simp]
theorem called_appendWords (words : List Int) : called (words.flatMap appendWord) = [] := by
  induction words with
  | nil => rfl
  | cons w rest ih =>
    rw [List.flatMap_cons, called_append, ih]
    rfl

@[simp]
theorem routine?_shortcut (isAnd : Bool) (decided : Label) :
    routine? (shortcut isAnd decided) = none := by
  cases isAnd <;> rfl

namespace State

def write (s : State) (lines : List Line) (f : Frame) (n : Nat) (d : DataSection) : State :=
  { s with
    assembler := s.assembler.write lines
    frame := f
    nextLabel := n
    data := d
    routines := (called lines).foldl RoutineSet.request s.routines }

variable {s : State} {lines more : List Line} {f g : Frame} {n m : Nat} {d e : DataSection}

@[simp]
theorem assembler_write : (s.write lines f n d).assembler = s.assembler.write lines :=
  rfl

@[simp]
theorem frame_write : (s.write lines f n d).frame = f :=
  rfl

@[simp]
theorem nextLabel_write : (s.write lines f n d).nextLabel = n :=
  rfl

@[simp]
theorem data_write : (s.write lines f n d).data = d :=
  rfl

@[simp]
theorem targets_write : (s.write lines f n d).targets = s.targets :=
  rfl

@[simp]
theorem write_write :
    (s.write lines f n d).write more g m e = s.write (lines ++ more) g m e := by
  unfold write
  simp only [called_append, List.foldl_append, Assembler.write_write]

theorem write_nil : s.write [] s.frame s.nextLabel s.data = s := by
  simp [write]

end State

def Yields {α : Type} (x : Lower α) (s : State) (a : α) (s' : State) : Prop :=
  x s = .ok a s'

variable {α β : Type} {s s' : State}

@[simp]
theorem yields_bind {x : Lower α} {k : α → Lower β} {b : β} :
    Yields (x >>= k) s b s' ↔ ∃ a t, Yields x s a t ∧ Yields (k a) t b s' := by
  unfold Yields
  change EStateM.bind x k s = _ ↔ _
  unfold EStateM.bind
  cases h : x s with
  | ok a t =>
    constructor
    · exact fun hk => ⟨a, t, rfl, hk⟩
    · rintro ⟨_, _, heq, hk⟩
      cases heq
      exact hk
  | error e t => simp

@[simp]
theorem yields_pure {a b : α} : Yields (pure a) s b s' ↔ b = a ∧ s' = s := by
  change EStateM.Result.ok a s = _ ↔ _
  simp [eq_comm]

@[simp]
theorem yields_map {x : Lower α} {g : α → β} {b : β} :
    Yields (g <$> x) s b s' ↔ ∃ a, Yields x s a s' ∧ b = g a := by
  rw [← bind_pure_comp, yields_bind]
  simp only [yields_pure]
  constructor
  · rintro ⟨a, _, hx, rfl, rfl⟩
    exact ⟨a, hx, rfl⟩
  · rintro ⟨a, hx, rfl⟩
    exact ⟨a, s', hx, rfl, rfl⟩

@[simp]
theorem yields_fail {span : Span} {kind : LoweringErrorKind} {a : α} :
    Yields (fail span kind) s a s' ↔ False := by
  constructor
  · intro h
    cases h
  · exact False.elim

@[simp]
theorem yields_liftAt {span : Span} {x : Except LoweringErrorKind α} {a : α} :
    Yields (liftAt span x) s a s' ↔ x = .ok a ∧ s' = s := by
  cases x with
  | ok b =>
    unfold liftAt
    rw [yields_pure]
    simp [eq_comm]
  | error kind =>
    unfold liftAt
    rw [yields_fail]
    simp

@[simp]
theorem yields_emit {lines : List Line} {u : Unit} (h : called lines = []) :
    Yields (emit lines) s u s' ↔ s' = s.write lines s.frame s.nextLabel s.data := by
  change EStateM.Result.ok () _ = _ ↔ _
  simp [State.write, h, eq_comm]

@[simp]
theorem yields_callRoutine {r : Routine} {u : Unit} :
    Yields (callRoutine r) s u s' ↔
      s' = s.write [.jal r.label] s.frame s.nextLabel s.data := by
  change EStateM.Result.ok () _ = _ ↔ _
  simp [State.write, eq_comm]

@[simp]
theorem yields_freshLabel {l : Label} :
    Yields freshLabel s l s' ↔
      l = .numbered s.nextLabel ∧ s' = s.write [] s.frame (s.nextLabel + 1) s.data := by
  change EStateM.Result.ok _ _ = _ ↔ _
  simp [State.write, eq_comm]

@[simp]
theorem yields_loadRegion {length : Nat} {u : Unit} :
    Yields (loadRegion length) s u s' ↔
      s' = s.write [.la .t0 (s.data.allocate length).1, .addi .t0 .t0 wordBytes] s.frame s.nextLabel
        (s.data.allocate length).2 := by
  change EStateM.Result.ok () _ = _ ↔ _
  simp [State.write, DataSection.allocate, eq_comm]

@[simp]
theorem yields_frame {f : Frame} : Yields frame s f s' ↔ f = s.frame ∧ s' = s := by
  change EStateM.Result.ok _ _ = _ ↔ _
  simp [eq_comm]

@[simp]
theorem yields_level {n : Int} : Yields level s n s' ↔ n = s.frame.bytes ∧ s' = s := by
  change EStateM.Result.ok _ _ = _ ↔ _
  simp [eq_comm]

@[simp]
theorem yields_targets {j : JumpTargets} : Yields targets s j s' ↔ j = s.targets ∧ s' = s := by
  change EStateM.Result.ok _ _ = _ ↔ _
  simp [eq_comm]

@[simp]
theorem yields_setFrame {f : Frame} {u : Unit} :
    Yields (setFrame f) s u s' ↔ s' = s.write [] f s.nextLabel s.data := by
  change EStateM.Result.ok () _ = _ ↔ _
  simp [State.write, eq_comm]

@[simp]
theorem yields_pushSlot {kind : SlotKind} {length : Option Nat} {u : Unit} :
    Yields (pushSlot kind length) s u s' ↔
      s' = s.write [] (s.frame.push kind length) s.nextLabel s.data := by
  simp [pushSlot, yields_bind, yields_frame, yields_setFrame, and_assoc]

@[simp]
theorem yields_popSlot {span : Span} {slot : Slot} :
    Yields (popSlot span) s slot s' ↔
      ∃ f, s.frame.pop = .ok (slot, f) ∧ s' = s.write [] f s.nextLabel s.data := by
  simp only [popSlot, yields_bind, yields_frame, yields_liftAt, yields_setFrame, yields_pure, and_assoc,
    exists_eq_left, exists_and_left, Prod.exists]
  constructor
  · rintro ⟨_, f, h, rfl, _, rfl⟩
    exact ⟨f, h, rfl⟩
  · rintro ⟨f, h, rfl⟩
    exact ⟨slot, f, h, rfl, (), rfl⟩

@[simp]
theorem yields_nameTop {span : Span} {name : String} {u : Unit} :
    Yields (nameTop span name) s u s' ↔
      ∃ f, s.frame.nameTop name = .ok f ∧ s' = s.write [] f s.nextLabel s.data := by
  simp [nameTop, yields_bind, yields_frame, yields_setFrame, yields_liftAt, and_assoc]

@[simp]
theorem yields_pushValue {rs : Register} {kind : SlotKind} {u : Unit} :
    Yields (pushValue rs kind) s u s' ↔
      s' = s.write (push rs) (s.frame.push kind none) s.nextLabel s.data := by
  simp [pushValue, yields_bind, yields_emit, yields_pushSlot]

@[simp]
theorem yields_popValue {span : Span} {rd : Register} {u : Unit} :
    Yields (popValue span rd) s u s' ↔
      ∃ slot f, s.frame.pop = .ok (slot, f) ∧ s' = s.write (pop rd) f s.nextLabel s.data := by
  simp only [popValue, yields_bind, yields_popSlot, yields_emit, called_pop]
  constructor
  · rintro ⟨slot, _, ⟨f, h, rfl⟩, rfl⟩
    exact ⟨slot, f, h, by simp⟩
  · rintro ⟨slot, f, h, rfl⟩
    exact ⟨slot, _, ⟨f, h, rfl⟩, by simp⟩

@[simp]
theorem yields_discard {span : Span} {u : Unit} :
    Yields (discard span) s u s' ↔
      ∃ slot f, s.frame.pop = .ok (slot, f) ∧
        s' = s.write (release slot.size) f s.nextLabel s.data := by
  simp only [discard, yields_bind, yields_popSlot, yields_emit, called_release]
  constructor
  · rintro ⟨slot, _, ⟨f, h, rfl⟩, rfl⟩
    exact ⟨slot, f, h, by simp⟩
  · rintro ⟨slot, f, h, rfl⟩
    exact ⟨slot, _, ⟨f, h, rfl⟩, by simp⟩

@[simp]
theorem yields_resolve {span : Span} {name : String} {found : Int × Slot} :
    Yields (resolve span name) s found s' ↔ s.frame.resolve? name = some found ∧ s' = s := by
  simp only [resolve, yields_bind, yields_frame, and_assoc, exists_eq_left, exists_and_left]
  cases s.frame.resolve? name with
  | none => simp [yields_fail]
  | some found' => simp [yields_pure, eq_comm]

@[simp]
theorem yields_kindAt {span : Span} {n : Nat} {kind : SlotKind} :
    Yields (kindAt span n) s kind s' ↔
      ∃ slot, s.frame.peek? n = some slot ∧ kind = slot.kind ∧ s' = s := by
  simp only [kindAt, yields_bind, yields_frame, and_assoc, exists_eq_left, exists_and_left]
  cases s.frame.peek? n with
  | none => simp [yields_fail]
  | some slot => simp [yields_pure]

@[simp]
theorem yields_setKindAt {n : Nat} {kind : SlotKind} {u : Unit} :
    Yields (setKindAt n kind) s u s' ↔
      s' = s.write [] (s.frame.setKind n kind) s.nextLabel s.data := by
  simp [setKindAt, yields_bind, yields_frame, yields_setFrame, and_assoc]

@[simp]
theorem yields_openScope {u : Unit} :
    Yields openScope s u s' ↔ s' = s.write [] s.frame.openScope s.nextLabel s.data := by
  simp [openScope, yields_bind, yields_frame, yields_setFrame, and_assoc]

@[simp]
theorem yields_closeScope {u : Unit} :
    Yields closeScope s u s' ↔
      s' = s.write (release s.frame.closeScope.1) s.frame.closeScope.2 s.nextLabel s.data := by
  simp [closeScope, yields_bind, yields_frame, yields_setFrame, yields_emit, and_assoc]

@[simp]
theorem yields_inScope {x : Lower Unit} {u : Unit} :
    Yields (inScope x) s u s' ↔
      ∃ t, Yields x (s.write [] s.frame.openScope s.nextLabel s.data) () t ∧
        s' = t.write (release t.frame.closeScope.1) t.frame.closeScope.2 t.nextLabel t.data := by
  simp only [inScope, yields_bind, yields_openScope, yields_closeScope, exists_eq_left, exists_const]
  exact ⟨fun ⟨_, h⟩ => h, fun h => ⟨(), h⟩⟩

end Arbor.Lowering
