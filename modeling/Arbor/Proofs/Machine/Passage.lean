import Arbor.Proofs.Environment.Assignment
import Arbor.Proofs.Lowering.Closed
import Arbor.Proofs.Lowering.Places
import Arbor.Proofs.Machine.Division
import Arbor.Proofs.Machine.Loading
import Arbor.Proofs.Machine.Stack
import Arbor.Proofs.Machine.Tracker

/-!
This module contains the runs of a machine through the code of one expression, from any stack that holds the words of
its variables. Such a run changes the words of variables, and the words that it pushes.
-/

namespace Arbor.Machine

open Assembly
open Evaluation (State)
open Lowering (Frame Slot SlotKind labelCount)

/--
A listing that runs as it is written: no label is placed twice, the routines that are called are part of it, and the
machine finds the lines that it returns to.
-/
structure Linked (L : Layout) (lines : List Line) : Prop where
  unique : ∀ l, labelCount l lines ≤ 1
  routine : ∀ r : Routine, .jal r.label ∈ lines → ∃ k k', CodeAt lines k r.lines k'
  fits : L.Fits lines

theorem linked_usual_routines {code : List Line} {rs : List Routine}
    (hnodup : (placed (code ++ rs.flatMap Routine.lines)).Nodup)
    (hcalls : ∀ r ∈ Routine.all, .jal r.label ∈ code ++ rs.flatMap Routine.lines → r ∈ rs)
    (hlength : (code ++ rs.flatMap Routine.lines).length < 2 ^ 30) :
    Linked (.usual (code ++ rs.flatMap Routine.lines)) (code ++ rs.flatMap Routine.lines) where
  unique := Lowering.labelCount_le_one_of_nodup hnodup
  routine r hr := by
    obtain ⟨before, after, rfl⟩ := List.append_of_mem (hcalls r r.mem_all hr)
    rw [List.flatMap_append, List.flatMap_cons, ← List.append_assoc, ← List.append_assoc]
    exact ⟨_, _, codeAt_of_append _ _⟩
  fits := Layout.fits_usual hlength

theorem linked_usual {code : List Line} {r : Routine} (hnodup : (placed (code ++ r.lines)).Nodup)
    (hcalls : ∀ r' ∈ Routine.all, .jal r'.label ∈ code ++ r.lines → r' = r)
    (hlength : (code ++ r.lines).length < 2 ^ 30) : Linked (.usual (code ++ r.lines)) (code ++ r.lines) := by
  rw [← List.flatMap_singleton Routine.lines r] at hnodup hcalls hlength ⊢
  exact linked_usual_routines hnodup (fun r' hr' hmem => List.mem_singleton.mpr (hcalls r' hr' hmem)) hlength

def FailsDividing (L : Layout) (lines : List Line) (start : Hart) : Prop :=
  ∃ i j output, CodeAt lines i Routine.checkDivZero.lines j ∧ FailsIn L lines start i j output

/--
A machine before its run through code, with the words of a frame on its stack. The variables with some names hold cells.
There is room for a number of words below the stack, apart from the words of the frame.
-/
structure Passage where
  layout : Layout
  lines : List Line
  linked : Linked layout lines
  start : Hart
  frame : Frame
  nested : frame.Nested
  names : String → Prop
  height : Nat
  room : 4 * (frame.slots.length + height) ≤ 2 ^ 32

namespace Passage

def base (p : Passage) : Word :=
  p.start.core.get .sp + .ofNat 32 (4 * p.frame.slots.length)

def IsOther (p : Passage) (n : Nat) : Prop :=
  ∀ name slot, p.names name → p.frame.place? name ≠ some (n, slot)

def IsBelow (p : Passage) (n : Nat) : Prop :=
  p.frame.slots.length ≤ n ∧ n < p.frame.slots.length + p.height

/--
The bytes that belong to no variable with one of the names, and to no word that is pushed.
-/
structure Spares (p : Passage) (a : Word) : Prop where
  below : ∀ n, p.IsBelow n → 4 ≤ a - slotAt p.base n
  named : ∀ name n slot, p.names name → p.frame.place? name = some (n, slot) → 4 ≤ a - slotAt p.base n

/--
The stack of the machine holds the words of a frame, which has the same variables as the frame at the start. The words
of the slots without a name are given. Nothing else has changed.
-/
structure Holds (p : Passage) (f : Frame) (kept : Nat → Word) (s : State) (core : Core) : Prop where
  nested : f.Nested
  place : ∀ name, f.place? name = p.frame.place? name
  le : f.slots.length ≤ p.frame.slots.length + p.height
  sp : core.get .sp = stackTop p.base f.bytes
  bound : ∀ name n slot, p.names name → p.frame.place? name = some (n, slot) →
    ∃ b, s.env.get name = .ok b ∧ b.kind = slot.kind.kind ∧ HasCell slot.kind b.value ∧
      core.loadWord (slotAt p.base n) = wordOf b.value
  kept : ∀ n < f.slots.length, p.IsOther n → core.loadWord (slotAt p.base n) = kept n
  memory : ∀ a, p.Spares a → core.memory a = p.start.core.memory a
  registers : ∀ r, r ∉ workRegisters → r ≠ .sp → core.get r = p.start.core.get r
  output : core.output = p.start.core.output

variable {p : Passage} {k k' n m : Nat} {core : Core} {f : Frame} {kept : Nat → Word} {s : State}
  {kind kind' : SlotKind} {len len' : Option Nat} {rd : Register} {w : Word} {name : String} {slot : Slot}

theorem lt_of_place (h : p.frame.place? name = some (n, slot)) : 4 * n < 2 ^ 32 := by
  have hlt := Frame.place?_lt h
  have hroom := p.room
  omega

theorem IsBelow.lt (h : p.IsBelow n) : 4 * n < 2 ^ 32 := by
  have hlt := h.2
  have hroom := p.room
  omega

theorem IsBelow.ne_of_place (h : p.IsBelow n) (hplace : p.frame.place? name = some (m, slot)) : n ≠ m := by
  have hlt := Frame.place?_lt hplace
  have hle := h.1
  omega

theorem divided (hg : Reaches p.layout p.lines p.start ⟨core, k⟩)
    (hl : p.lines[k]? = some (.jal Routine.checkDivZero.label)) (hlength : k + 1 < p.lines.length) :
    if core.get .a0 = 0 then FailsDividing p.layout p.lines p.start
    else ∃ w, Reaches p.layout p.lines p.start ⟨core.set .ra w, k + 1⟩ := by
  obtain ⟨i, j, hroutine⟩ := p.linked.routine .checkDivZero (List.mem_of_getElem? hl)
  have hcheck := Reaches.checkDivZero hroutine p.linked.unique p.linked.fits hg hl hlength
  split
  · next hzero =>
    rw [if_pos hzero] at hcheck
    exact ⟨i, j, _, hroutine, hcheck⟩
  · next hzero =>
    rwa [if_neg hzero] at hcheck

namespace Holds

theorem set (h : p.Holds f kept s core) (hrd : rd ∈ workRegisters) : p.Holds f kept s (core.set rd w) where
  nested := h.nested
  place := h.place
  le := h.le
  sp := (Core.get_set_of_ne (ne_of_mem_workRegisters _ hrd).2.symm).trans h.sp
  bound := h.bound
  kept := h.kept
  memory := h.memory
  registers r hr hsp := by
    have hne : r ≠ rd := fun heq => hr (heq ▸ hrd)
    rw [Core.get_set_of_ne hne, h.registers r hr hsp]
  output := h.output

theorem retyped (h : p.Holds (f.push kind len) kept s core) : p.Holds (f.push kind' len') kept s core where
  nested := h.nested.of_push.push
  place name := by rw [← h.place, Frame.place?_push, Frame.place?_push]
  le := h.le
  sp := by rw [h.sp, Frame.bytes_push, Frame.bytes_push]
  bound := h.bound
  kept := h.kept
  memory := h.memory
  registers := h.registers
  output := h.output

theorem isOther_top (h : p.Holds (f.push kind len) kept s core) : p.IsOther f.slots.length := by
  intro name slot _ hplace
  rw [← h.place, Frame.place?_push] at hplace
  exact absurd (Frame.place?_lt hplace) (Nat.lt_irrefl _)

theorem sp_push (h : p.Holds (f.push kind len) kept s core) : core.get .sp = slotAt p.base f.slots.length := by
  rw [h.sp, h.nested.bytes_eq, slotAt_eq]
  rfl

theorem top (h : p.Holds (f.push kind len) (Function.update kept f.slots.length w) s core) :
    core.loadWord (core.get .sp) = w := by
  rw [h.sp_push, h.kept _ (Nat.lt_succ_self _) h.isOther_top, Function.update_self]

theorem pushed (hg : Reaches p.layout p.lines p.start ⟨core, k⟩) (h : p.Holds f kept s core)
    (hroom : p.IsBelow f.slots.length) (hc : CodeAt p.lines k (push .t0) k') :
    ∃ core', Reaches p.layout p.lines p.start ⟨core', k'⟩ ∧
      p.Holds (f.push kind len) (Function.update kept f.slots.length (core.get .t0)) s core' := by
  have htop : core.get .sp + .ofInt 32 (-wordBytes) = slotAt p.base f.slots.length := by
    rw [h.sp]
    apply stackTop_add_offset
    rw [h.nested.bytes_eq]
    unfold wordBytes
    omega
  refine ⟨(core.set .sp (slotAt p.base f.slots.length)).storeWord (slotAt p.base f.slots.length) (core.get .t0),
    Reaches.straight hc ?_ hg, ?_⟩
  · simp [push, runLine, effect, immediateOp, Core.get_set, Core.get_set_of_ne, htop]
  · constructor
    case nested => exact h.nested.push
    case place => exact fun name => by rw [Frame.place?_push, h.place]
    case le => exact hroom.2
    case sp =>
      rw [Core.get_storeWord, Core.get_set (by decide), slotAt_eq, Frame.bytes_push, h.nested.bytes_eq]
      rfl
    case bound =>
      intro name n slot hname hplace
      obtain ⟨b, hget, hkind, hvalue, hword⟩ := h.bound name n slot hname hplace
      refine ⟨b, hget, hkind, hvalue, ?_⟩
      rw [loadWord_storeWord_slot (hroom.ne_of_place hplace) hroom.lt (lt_of_place hplace)]
      exact hword
    case kept =>
      intro n hn hother
      rcases Nat.lt_succ_iff_lt_or_eq.mp hn with hn | rfl
      · have hlt := hroom.lt
        rw [loadWord_storeWord_slot (Nat.ne_of_gt hn) hlt (by omega), Function.update_of_ne (Nat.ne_of_lt hn)]
        exact h.kept n hn hother
      · rw [Core.loadWord_storeWord, Function.update_self]
    case memory =>
      intro a ha
      rw [Core.memory_storeWord (ha.below _ hroom)]
      exact h.memory a ha
    case registers =>
      intro r hr hsp
      rw [Core.get_storeWord, Core.get_set_of_ne hsp, h.registers r hr hsp]
    case output => exact h.output

theorem popped (hg : Reaches p.layout p.lines p.start ⟨core, k⟩)
    (h : p.Holds (f.push kind len) (Function.update kept f.slots.length w) s core)
    (hc : CodeAt p.lines k (pop rd) k') (hrd : rd ∈ workRegisters) :
    ∃ core', Reaches p.layout p.lines p.start ⟨core', k'⟩ ∧ p.Holds f kept s core' ∧ core'.get rd = w ∧
      ∀ r, r ≠ rd → r ≠ .sp → core'.get r = core.get r := by
  obtain ⟨hzero, hsp⟩ := ne_of_mem_workRegisters _ hrd
  have hraise : core.get .sp + .ofInt 32 wordBytes = stackTop p.base f.bytes := by
    rw [h.sp, Frame.bytes_push, stackTop_add, BitVec.sub_add_cancel]
  refine ⟨(core.set rd w).set .sp (stackTop p.base f.bytes), Reaches.straight hc ?_ hg, ?_, ?_, ?_⟩
  · simp [pop, runLine, effect, immediateOp, Core.get_set_of_ne hsp.symm, hraise, h.top]
  · constructor
    case nested => exact h.nested.of_push
    case place => exact fun name => by rw [← h.place, Frame.place?_push]
    case le => exact Nat.le_of_succ_le h.le
    case sp => rw [Core.get_set (by decide)]
    case bound => exact h.bound
    case kept =>
      intro n hn hother
      have hkept := h.kept n (Nat.lt_succ_of_lt hn) hother
      rwa [Function.update_of_ne (Nat.ne_of_lt hn)] at hkept
    case memory => exact h.memory
    case registers =>
      intro r hr hne
      have hrd' : r ≠ rd := fun heq => hr (heq ▸ hrd)
      rw [Core.get_set_of_ne hne, Core.get_set_of_ne hrd', h.registers r hr hne]
    case output => exact h.output
  · rw [Core.get_set_of_ne hsp, Core.get_set hzero]
  · intro r hr hne
    rw [Core.get_set_of_ne hne, Core.get_set_of_ne hr]

theorem loaded {offset : Int} (h : p.Holds f kept s core) (hname : p.names name)
    (hslot : f.resolve? name = some (offset, slot)) :
    ∃ b, s.env.get name = .ok b ∧ b.kind = slot.kind.kind ∧ HasCell slot.kind b.value ∧
      effect p.layout core (.load .word .t0 offset .sp) = some (core.set .t0 (wordOf b.value)) := by
  obtain ⟨n, hplace, hoffset⟩ := h.nested.place?_of_resolve? hslot
  rw [h.place] at hplace
  obtain ⟨b, hget, hkind, hvalue, hword⟩ := h.bound name n slot hname hplace
  refine ⟨b, hget, hkind, hvalue, ?_⟩
  simp only [effect, h.sp, stackTop_add_offset hoffset, hword]

theorem stored {offset : Int} {v : Value} (hg : Reaches p.layout p.lines p.start ⟨core, k⟩)
    (h : p.Holds f kept s core) (hl : p.lines[k]? = some (.sw .t0 offset .sp)) (hname : p.names name)
    (hslot : f.resolve? name = some (offset, slot)) (hv : HasCell slot.kind v) (ht₀ : core.get .t0 = wordOf v) :
    ∃ env core', s.env.set name v = .ok env ∧ Reaches p.layout p.lines p.start ⟨core', k + 1⟩ ∧
      p.Holds f kept { s with env } core' ∧ ∀ r, core'.get r = core.get r := by
  obtain ⟨n, hplace, hoffset⟩ := h.nested.place?_of_resolve? hslot
  rw [h.place] at hplace
  obtain ⟨b, hget, hkind, -, -⟩ := h.bound name n slot hname hplace
  obtain ⟨env, hset, hnew, hsame⟩ := Environment.exists_set hget v
  have hn := lt_of_place hplace
  refine ⟨env, core.storeWord (slotAt p.base n) (wordOf v), hset, ?_, ?_, fun r => Core.get_storeWord⟩
  · apply hg.step
    apply step_instruction hl
    simp only [effect, h.sp, stackTop_add_offset hoffset, ht₀]
  · constructor
    case nested => exact h.nested
    case place => exact h.place
    case le => exact h.le
    case sp => rw [Core.get_storeWord, h.sp]
    case bound =>
      intro name' n' slot' hname' hplace'
      by_cases heq : name' = name
      · subst heq
        rw [hplace] at hplace'
        cases hplace'
        exact ⟨_, hnew, hkind, hv, Core.loadWord_storeWord⟩
      · obtain ⟨b', hget', hkind', hvalue', hword'⟩ := h.bound name' n' slot' hname' hplace'
        have hne : n ≠ n' := by
          rintro rfl
          exact heq (Frame.place?_inj hplace' hplace)
        refine ⟨b', (hsame name' heq).trans hget', hkind', hvalue', ?_⟩
        rw [loadWord_storeWord_slot hne hn (lt_of_place hplace'), hword']
    case kept =>
      intro n' hn' hother
      have hne : n ≠ n' := by
        rintro rfl
        exact hother name slot hname hplace
      have hlt : 4 * n' < 2 ^ 32 := by
        have hle := h.le
        have hroom := p.room
        omega
      rw [loadWord_storeWord_slot hne hn hlt]
      exact h.kept n' hn' hother
    case memory =>
      intro a ha
      rw [Core.memory_storeWord (ha.named name n slot hname hplace), h.memory a ha]
    case registers =>
      intro r hr hsp
      rw [Core.get_storeWord, h.registers r hr hsp]
    case output => exact h.output

end Holds

def tracker (p : Passage) : Tracker where
  layout := p.layout
  lines := p.lines
  start := p.start
  Holds := p.Holds
  Names name _ := p.names name
  HasRoom := p.IsBelow
  Fails _ := FailsDividing p.layout p.lines p.start
  unique := p.linked.unique
  set := Holds.set
  retyped := Holds.retyped
  pushed := Holds.pushed
  top := Holds.top
  popped := Holds.popped
  loaded := Holds.loaded
  stored := Holds.stored
  divided hg _ := divided hg

end Passage

end Arbor.Machine
