import Arbor.Proofs.Evaluation.Triple
import Arbor.Proofs.Lowering.Code
import Arbor.Proofs.Lowering.Level
import Arbor.Proofs.Machine.Division
import Arbor.Proofs.Machine.Stack

/-!
This module contains the runs of a machine on a listing that an assembler can resolve, with the stack apart from the
data: what pushing, popping, releasing, jumping and calling the check of a divisor do.
-/

namespace Arbor.Machine

open Assembly
open Evaluation (State Halt)
open Lowering (Frame Slot SlotKind labelCount)

/--
A machine before its run on a listing. No label is placed twice, the targets of jumps are placed, the routines that are
called are part of the listing, and the stack never gets to the fixed strings.
-/
structure Process where
  layout : Layout
  lines : List Line
  start : Hart
  unique : ∀ l, labelCount l lines ≤ 1
  target : ∀ l ∈ lines, ∀ t, l.target? = some t → .label t ∈ lines
  routine : ∀ r : Routine, .jal r.label ∈ lines → ∃ k k', CodeAt lines k r.lines k'
  fits : layout.Fits lines
  apart : ∀ m, Reaches layout lines start m → Apart layout (start.core.get .sp) (m.core.get .sp)

namespace Process

def base (p : Process) : Word :=
  p.start.core.get .sp

def Gets (p : Process) (k : Nat) (core : Core) : Prop :=
  Reaches p.layout p.lines p.start ⟨core, k⟩

/--
The machine stands for a state of the evaluator, and all words on the stack are those of the frame.
-/
structure Holds (p : Process) (f : Frame) (kept : Nat → Word) (pending : List UInt8) (s : State)
    (core : Core) : Prop extends Stands p.layout p.base f kept pending s core where
  sp : core.get .sp = stackTop p.base f.bytes

/--
The machine fails for a division by zero after it has output some bytes.
-/
def Fails (p : Process) (output : List UInt8) : Prop :=
  ∃ core k, p.Gets k core ∧ step p.layout p.lines ⟨core, k⟩ = .exited 1 ∧
    core.output = output ++ bytes (content .divisionByZero)

variable {p : Process} {c : List Line} {k k' m : Nat} {core core' : Core} {f : Frame}
  {kept : Nat → Word} {pending : List UInt8} {s : State} {kind : SlotKind} {len : Option Nat}
  {rd rs : Register} {w : Word}

/-! Jumps -/

theorem exists_target {l : Line} {t : Label} (hl : p.lines[k]? = some l) (ht : l.target? = some t) :
    ∃ m : Nat, p.lines[m]? = some (.label t) :=
  List.getElem?_of_mem (p.target l (List.mem_of_getElem? hl) t ht)

theorem label_unique {t : Label} {k m : Nat} (hk : p.lines[k]? = some (.label t))
    (hm : p.lines[m]? = some (.label t)) : k = m :=
  Lowering.eq_of_labelCount_le_one (p.unique t) hk hm

namespace Gets

theorem straight (h : p.Gets k core) (hc : CodeAt p.lines k c k')
    (hrun : runLines p.layout core c = some core') : p.Gets k' core' :=
  Reaches.straight hc hrun h

theorem label {t : Label} (h : p.Gets k core) (hl : p.lines[k]? = some (.label t)) :
    p.Gets (k + 1) core :=
  Reaches.label h hl

theorem jump {t : Label} (h : p.Gets k core) (hl : p.lines[k]? = some (.j t))
    (ht : p.lines[m]? = some (.label t)) : p.Gets m core :=
  Reaches.jump h hl ht (p.unique t)

theorem branchZero {op : ZeroBranchOp} {t : Label} (h : p.Gets k core)
    (hl : p.lines[k]? = some (.instruction (.branchZero op rs t)))
    (ht : p.lines[m]? = some (.label t)) :
    p.Gets (if zeroBranchTaken op (core.get rs) then m else k + 1) core :=
  Reaches.branchZero h hl ht (p.unique t)

theorem branch {op : BranchOp} {rs₁ rs₂ : Register} {t : Label} (h : p.Gets k core)
    (hl : p.lines[k]? = some (.instruction (.branch op rs₁ rs₂ t)))
    (ht : p.lines[m]? = some (.label t)) :
    p.Gets (if branchTaken op (core.get rs₁) (core.get rs₂) then m else k + 1) core :=
  Reaches.branch h hl ht (p.unique t)

end Gets

/-! The stack -/

theorem Gets.release {a b : Int} (h : p.Gets k core) (hc : CodeAt p.lines k (release (a - b)) k')
    (hsp : core.get .sp = stackTop p.base a) (hle : b ≤ a) :
    p.Gets k' (core.set .sp (stackTop p.base b)) :=
  Reaches.release h hc hsp hle

namespace Holds

theorem set (h : p.Holds f kept pending s core) (hr : rd ≠ .sp) :
    p.Holds f kept pending s (core.set rd w) :=
  ⟨h.toStands.set, (Core.get_set_of_ne hr.symm).trans h.sp⟩

theorem bytes_eq (h : p.Holds f kept pending s core) : f.bytes = wordBytes * f.slots.length := by
  obtain ⟨words, hwords⟩ := h.words
  exact hwords.bound.bytes_eq

theorem apart (h : p.Holds f kept pending s core) (hg : p.Gets k core) :
    Apart p.layout p.base (stackTop p.base (wordBytes * f.slots.length)) := by
  rw [← h.bytes_eq, ← h.sp]
  exact p.apart _ hg

theorem pushed (h : p.Holds f kept pending s core) (hg : p.Gets k core)
    (hc : CodeAt p.lines k (push rs) k') (hrs : rs ≠ .sp) (hw : core.get rs = w) :
    ∃ core', p.Gets k' core' ∧
      p.Holds (f.push kind len) (Function.update kept f.slots.length w) pending s core' := by
  have hroom := (h.apart hg).room h.room
  have htop : core.get .sp + .ofInt 32 (-wordBytes) = slotAt p.base f.slots.length := by
    rw [h.sp]
    apply stackTop_add_offset
    rw [h.bytes_eq]
    unfold wordBytes
    omega
  simp only [push, codeAt_instruction, codeAt_nil] at hc
  obtain ⟨haddi, hsw, rfl⟩ := hc
  have hlower : p.Gets (k + 1) (core.set .sp (slotAt p.base f.slots.length)) := by
    apply Reaches.step hg
    apply step_instruction haddi
    rw [← htop]
    rfl
  have hstore : p.Gets (k + 1 + 1)
      ((core.set .sp (slotAt p.base f.slots.length)).storeWord (slotAt p.base f.slots.length) w) := by
    apply Reaches.step hlower
    apply step_instruction hsw
    simp [effect, Core.get_set, Core.get_set_of_ne hrs, hw]
  -- The store itself must hit no string, and this is known of the state right before it.
  have hapart : Apart p.layout p.base (stackTop p.base (wordBytes * (f.slots.length + 1 : Nat))) := by
    have := p.apart _ hlower
    rwa [Core.get_set (by decide), slotAt_eq] at this
  obtain ⟨words, hwords⟩ := h.words
  have hwords : Words p.base f kept s.env (core.set .sp (slotAt p.base f.slots.length)) words :=
    ⟨hwords.load, hwords.bound⟩
  refine ⟨_, hstore, ⟨⟨_, hwords.push h.room⟩, hroom, ?_, h.output⟩, ?_⟩
  · exact Stores.storeWord h.strings hapart (Nat.lt_succ_self _) hroom
  · rw [Core.get_storeWord, Core.get_set (by decide), slotAt_eq, Lowering.Frame.bytes_push, h.bytes_eq]
    rfl

theorem top (h : p.Holds (f.push kind len) (Function.update kept f.slots.length w) pending s core) :
    core.loadWord (core.get .sp) = w := by
  obtain ⟨words, hwords⟩ := h.words
  have htop : core.get .sp = slotAt p.base f.slots.length := by
    rw [h.sp, slotAt_eq, Lowering.Frame.bytes_push, hwords.pop.bound.bytes_eq]
    rfl
  rw [htop, hwords.top.1]

theorem popped (h : p.Holds (f.push kind len) (Function.update kept f.slots.length w) pending s core)
    (hg : p.Gets k core) (hc : CodeAt p.lines k (pop rd) k') (hzero : rd ≠ .zero) (hsp : rd ≠ .sp) :
    ∃ core', p.Gets k' core' ∧ p.Holds f kept pending s core' ∧ core'.get rd = w ∧
      ∀ r, r ≠ rd → r ≠ .sp → core'.get r = core.get r := by
  obtain ⟨words, hwords⟩ := h.words
  have hroom : 4 * (f.slots.length + 1) < 2 ^ 32 := h.room
  have hraise : core.get .sp + .ofInt 32 wordBytes = stackTop p.base f.bytes := by
    rw [h.sp, Lowering.Frame.bytes_push, stackTop_add, BitVec.sub_add_cancel]
  refine ⟨(core.set rd w).set .sp (stackTop p.base f.bytes), hg.straight hc ?_, ⟨?_, ?_⟩, ?_, ?_⟩
  · simp [pop, runLine, effect, immediateOp, Core.get_set_of_ne hsp.symm, hraise, h.top]
  · exact ⟨⟨words, hwords.pop.load, hwords.pop.bound⟩, by omega, h.strings, h.output⟩
  · rw [Core.get_set (by decide)]
  · rw [Core.get_set_of_ne hsp, Core.get_set hzero]
  · intro r hr hsp
    rw [Core.get_set_of_ne hsp, Core.get_set_of_ne hr]

theorem loaded (rd : Register) {name : String} {offset : Int} {slot : Slot}
    (h : p.Holds f kept pending s core) (hslot : f.resolve? name = some (offset, slot)) :
    ∃ b, s.env.get name = .ok b ∧ b.kind = slot.kind.kind ∧ HasWord slot.kind b.value ∧
      effect p.layout core (.load .word rd offset .sp) = some (core.set rd (wordOf b.value)) := by
  obtain ⟨words, hwords⟩ := h.words
  obtain ⟨n, b, hget, hkind, hvalue, hload, hoffset⟩ := hwords.get hslot
  refine ⟨b, hget, hkind, hvalue, ?_⟩
  simp only [effect, h.sp, stackTop_add_offset hoffset, hload]

theorem stored {v : Value} {name : String} {offset : Int} {slot : Slot} (h : p.Holds f kept pending s core)
    (hg : p.Gets k core) (hl : p.lines[k]? = some (.sw rs offset .sp))
    (hslot : f.resolve? name = some (offset, slot)) (hv : HasWord slot.kind v)
    (hrs : core.get rs = wordOf v) :
    ∃ env core', s.env.set name v = .ok env ∧ p.Gets (k + 1) core' ∧
      p.Holds f kept pending { s with env } core' ∧ ∀ r, core'.get r = core.get r := by
  obtain ⟨words, hwords⟩ := h.words
  obtain ⟨n, env, hn, hoffset, hset, hwords'⟩ := hwords.set h.room hslot hv
  refine ⟨env, _, hset, ?_, ⟨⟨⟨_, hwords'⟩, h.room, ?_, h.output⟩, ?_⟩, ?_⟩
  · apply Reaches.step hg
    apply step_instruction hl
    simp only [effect, h.sp, stackTop_add_offset hoffset, hrs]
  · exact Stores.storeWord h.strings (h.apart hg) hn h.room
  · exact h.sp
  · exact fun r => Core.get_storeWord

end Holds

/-! The check of a divisor -/

theorem service_string {L : Layout} (hstores : Stores L core.memory) {string : FixedString}
    (ha₇ : core.get .a7 = 4) (ha₀ : core.get .a0 = L.data string.label) :
    service core = some (core.write (bytes (content string))) := by
  unfold service
  rw [ha₇, ha₀]
  exact congrArg (fun xs => some (core.write xs)) (stringAt_content hstores string)

theorem Gets.checkDivZero (h : p.Gets k core) (hl : p.lines[k]? = some (.jal Routine.checkDivZero.label))
    (hlength : k + 1 < p.lines.length) (hstores : Stores p.layout core.memory) :
    if core.get .a0 = 0 then p.Fails core.output else ∃ w, p.Gets (k + 1) (core.set .ra w) := by
  obtain ⟨i, j, hroutine⟩ := p.routine .checkDivZero (List.mem_of_getElem? hl)
  have hcheck := Reaches.checkDivZero hroutine p.unique p.fits h hl hlength
  rw [stringAt_content hstores] at hcheck
  split
  · next hzero =>
    rw [if_pos hzero] at hcheck
    obtain ⟨core', m, hg, -, -, hexit, houtput⟩ := hcheck
    exact ⟨core', m, hg, hexit, houtput⟩
  · next hzero =>
    rwa [if_neg hzero] at hcheck

end Process

end Arbor.Machine
