import Arbor.Evaluation.Run
import Arbor.Proofs.Agreement.Scopes
import Arbor.Proofs.Machine.Words
import Mathlib.Logic.Function.Basic

/-!
This module contains the stack of a machine that runs lowered code. The words of the slots of a frame lie one below the
other from a base on, and the word of a variable is that of its value.
-/

namespace Arbor.Machine

open Agreement Assembly
open Evaluation (State)
open Lowering (Frame Slot SlotKind)

def stackTop (base : Word) (level : Int) : Word :=
  base - .ofInt 32 level

def slotAt (base : Word) (n : Nat) : Word :=
  base - .ofNat 32 (4 * (n + 1))

def Apart (L : Layout) (base sp : Word) : Prop :=
  ∀ (s : FixedString) (i : Nat), i < (zeroEnded s).length →
    base - sp ≤ L.data s.label + .ofNat 32 i - sp

def printed (lines : Array String) : List UInt8 :=
  lines.toList.flatMap fun line => bytes line ++ [newline]

/-! Addresses -/

section Addresses

variable {L : Layout} {base w : Word} {core : Core} {n m : Nat}

theorem stackTop_words (n : Nat) : stackTop base (wordBytes * n) = base - .ofNat 32 (4 * n) := by
  unfold stackTop wordBytes
  rw [← BitVec.ofInt_natCast]
  push_cast
  rfl

theorem stackTop_add (a b : Int) : stackTop base (a + b) = stackTop base a - .ofInt 32 b := by
  unfold stackTop
  rw [BitVec.ofInt_add, BitVec.sub_sub]

theorem slotAt_eq (n : Nat) : slotAt base n = stackTop base (wordBytes * (n + 1)) := by
  have hwords : stackTop base (wordBytes * (n + 1 : Nat)) = slotAt base n := stackTop_words (n + 1)
  push_cast at hwords
  exact hwords.symm

theorem stackTop_add_offset {level offset : Int} (h : offset + wordBytes * (n + 1) = level) :
    stackTop base level + .ofInt 32 offset = slotAt base n := by
  have hlevel : wordBytes * ((n : Int) + 1) = level + -offset := by omega
  rw [slotAt_eq, hlevel, stackTop_add, BitVec.ofInt_neg, BitVec.sub_neg]

theorem Reaches.push {L : Layout} {lines : List Line} {start : Hart} {k k' : Nat} {rs : Register}
    (h : Reaches L lines start ⟨core, k⟩) (hrs : rs ≠ .sp) (hc : CodeAt lines k (Assembly.push rs) k') :
    Reaches L lines start ⟨(core.set .sp (core.get .sp - 4)).storeWord (core.get .sp - 4) (core.get rs), k'⟩ := by
  have hlower : core.get .sp + .ofInt 32 (-wordBytes) = core.get .sp - 4 := by
    have hword : BitVec.ofInt 32 (-wordBytes) = -4 := rfl
    rw [hword, ← BitVec.sub_eq_add_neg]
  apply Reaches.straight hc _ h
  simp [Assembly.push, runLine, effect, immediateOp, Core.get_set, Core.get_set_of_ne hrs, hlower]

theorem Reaches.release {L : Layout} {lines : List Line} {start : Hart} {k k' : Nat} {a b : Int}
    (h : Reaches L lines start ⟨core, k⟩) (hc : CodeAt lines k (Assembly.release (a - b)) k')
    (hsp : core.get .sp = stackTop base a) (hle : b ≤ a) :
    Reaches L lines start ⟨core.set .sp (stackTop base b), k'⟩ := by
  unfold Assembly.release at hc
  split at hc
  · apply Reaches.straight hc _ h
    have hraise : core.get .sp + .ofInt 32 (a - b) = stackTop base b := by
      have hab : a = b + (a - b) := by omega
      rw [hsp]
      nth_rewrite 1 [hab]
      rw [stackTop_add, BitVec.sub_add_cancel]
    simp [runLine, effect, immediateOp, hraise]
  · have hab : a = b := by omega
    subst hab
    cases hc
    rwa [← hsp, Core.set_get (by decide)]

theorem loadWord_storeWord_slot (hne : n ≠ m) (hn : 4 * n < 2 ^ 32) (hm : 4 * m < 2 ^ 32) :
    (core.storeWord (slotAt base n) w).loadWord (slotAt base m) = core.loadWord (slotAt base m) := by
  unfold slotAt
  apply Core.loadWord_storeWord_of_apart <;> bv_omega

theorem Apart.room (h : Apart L base (stackTop base (wordBytes * n))) (hn : 4 * n < 2 ^ 32) :
    4 * (n + 1) < 2 ^ 32 := by
  -- One string with more than four bytes is enough: its first and fifth byte are both off the stack.
  have hlength : 4 < (zeroEnded .divisionByZero).length := by decide +kernel
  have hfirst := h .divisionByZero 0 (Nat.zero_lt_of_lt hlength)
  have hfifth := h .divisionByZero 4 hlength
  rw [stackTop_words] at hfirst hfifth
  generalize L.data FixedString.divisionByZero.label = a at hfirst hfifth
  bv_omega

theorem Apart.le_sub (h : Apart L base (stackTop base (wordBytes * m))) (hnm : n < m)
    (hm : 4 * m < 2 ^ 32) (s : FixedString) {i : Nat} (hi : i < (zeroEnded s).length) :
    4 ≤ L.data s.label + .ofNat 32 i - slotAt base n := by
  have hbyte := h s i hi
  rw [stackTop_words] at hbyte
  unfold slotAt
  generalize L.data s.label + .ofNat 32 i = a at hbyte
  bv_omega

theorem Stores.storeWord (hstores : Stores L core.memory)
    (h : Apart L base (stackTop base (wordBytes * m))) (hnm : n < m) (hm : 4 * m < 2 ^ 32) :
    Stores L (core.storeWord (slotAt base n) w).memory := by
  intro s i b hb
  obtain ⟨hi, -⟩ := List.getElem?_eq_some_iff.mp hb
  rw [Core.memory_storeWord (h.le_sub hnm hm s hi)]
  exact hstores s i b hb

end Addresses

/-! Slots -/

structure Named (words : Nat → Word) (n : Nat) (slot : Slot) (b : Binding) : Prop where
  kind : b.kind = slot.kind.kind
  value : HasWord slot.kind b.value
  word : words n = wordOf b.value

/--
The words of the slots of a frame, by the number of slots below them. Those of the slots without a name are kept.
-/
structure Words (base : Word) (f : Frame) (kept : Nat → Word) (env : Environment) (core : Core)
    (words : Nat → Word) : Prop where
  load : ∀ n < f.slots.length, core.loadWord (slotAt base n) = words n
  bound : Bound (fun _ => True) (Named words) (fun n => words n = kept n) f env

/--
A machine stands for a state of the evaluator: its stack holds the words of a frame, and it has output the lines that
are printed and some bytes of the next one.
-/
structure Stands (L : Layout) (base : Word) (f : Frame) (kept : Nat → Word) (pending : List UInt8)
    (s : State) (core : Core) : Prop where
  words : ∃ words, Words base f kept s.env core words
  room : 4 * f.slots.length < 2 ^ 32
  strings : Stores L core.memory
  output : core.output = printed s.lines ++ pending

theorem Stands.set {L : Layout} {base w : Word} {f : Frame} {kept : Nat → Word} {pending : List UInt8}
    {s : State} {core : Core} {rd : Register} (h : Stands L base f kept pending s core) :
    Stands L base f kept pending s (core.set rd w) where
  words := by
    obtain ⟨words, hwords⟩ := h.words
    exact ⟨words, hwords.load, hwords.bound⟩
  room := h.room
  strings := h.strings
  output := h.output

namespace Words

variable {base w : Word} {f : Frame} {kept words : Nat → Word} {env : Environment} {core : Core}
  {kind : SlotKind} {len : Option Nat} {name : String} {offset : Int} {slot : Slot}

theorem push (h : Words base f kept env core words) (hroom : 4 * f.slots.length < 2 ^ 32) :
    Words base (f.push kind len) (Function.update kept f.slots.length w) env
      (core.storeWord (slotAt base f.slots.length) w) (Function.update words f.slots.length w) where
  load n hn := by
    rcases Nat.lt_succ_iff_lt_or_eq.mp hn with hn | rfl
    · rw [loadWord_storeWord_slot (Nat.ne_of_gt hn) hroom (by omega), h.load n hn,
        Function.update_of_ne (Nat.ne_of_lt hn)]
    · rw [Core.loadWord_storeWord, Function.update_self]
  bound := by
    apply Bound.push
    · apply h.bound.mono
      · intro n hn slot b hb
        exact ⟨hb.kind, hb.value, by rw [Function.update_of_ne (Nat.ne_of_lt hn), hb.word]⟩
      · intro n hn hkept
        rw [Function.update_of_ne (Nat.ne_of_lt hn), Function.update_of_ne (Nat.ne_of_lt hn), hkept]
    · rw [Function.update_self, Function.update_self]

theorem top (h : Words base (f.push kind len) (Function.update kept f.slots.length w) env core words) :
    core.loadWord (slotAt base f.slots.length) = w ∧ words f.slots.length = w := by
  obtain ⟨_, htop⟩ := Bound.of_push h.bound
  rw [Function.update_self] at htop
  exact ⟨(h.load _ (Nat.lt_succ_self _)).trans htop, htop⟩

theorem pop (h : Words base (f.push kind len) (Function.update kept f.slots.length w) env core words) :
    Words base f kept env core words where
  load n hn := h.load n (Nat.lt_succ_of_lt hn)
  bound := by
    apply (Bound.of_push h.bound).1.mono (fun _ _ _ _ hb => hb)
    intro n hn hkept
    rwa [Function.update_of_ne (Nat.ne_of_lt hn)] at hkept

theorem declare {v : Value} (hv : HasWord kind v)
    (h : Words base (f.push kind len) (Function.update kept f.slots.length (wordOf v)) env core words)
    (hfree : f.isDeclared name = false) (hname : Environment.embedded.lookup name = none) :
    ∃ env', env.declare name kind.kind v = .ok env' ∧
      Words base (f.pushNamed kind len name) kept env' core words := by
  obtain ⟨env', hdeclare, hbound⟩ := h.pop.bound.declare hfree ⟨trivial, hname⟩ ⟨rfl, hv, h.top.2⟩
  exact ⟨env', hdeclare, h.load, hbound⟩

theorem get (h : Words base f kept env core words) (hslot : f.resolve? name = some (offset, slot)) :
    ∃ n b, env.get name = .ok b ∧ b.kind = slot.kind.kind ∧ HasWord slot.kind b.value ∧
      core.loadWord (slotAt base n) = wordOf b.value ∧ offset + wordBytes * (n + 1) = f.bytes := by
  obtain ⟨n, b, hfound, hoffset⟩ := h.bound.found trivial hslot
  rw [← h.bound.bytes_eq] at hoffset
  exact ⟨n, b, hfound.get, hfound.holds.kind, hfound.holds.value,
    (h.load n hfound.lt).trans hfound.holds.word, hoffset⟩

theorem set {v : Value} (h : Words base f kept env core words) (hroom : 4 * f.slots.length < 2 ^ 32)
    (hslot : f.resolve? name = some (offset, slot)) (hv : HasWord slot.kind v) :
    ∃ n env', n < f.slots.length ∧ offset + wordBytes * (n + 1) = f.bytes ∧
      env.set name v = .ok env' ∧
      Words base f kept env' (core.storeWord (slotAt base n) (wordOf v))
        (Function.update words n (wordOf v)) := by
  obtain ⟨n, b, hfound, hoffset⟩ := h.bound.found trivial hslot
  have hlt := hfound.lt
  obtain ⟨env', hset, hbound⟩ : ∃ env', env.set name v = .ok env' ∧
      Bound (fun _ => True) (Named (Function.update words n (wordOf v)))
        (fun k => Function.update words n (wordOf v) k = kept k) f env' := hfound.set
    (fun k hk s b hb => ⟨hb.kind, hb.value, by rw [Function.update_of_ne hk, hb.word]⟩)
    (fun k hk hkept => by rw [Function.update_of_ne hk, hkept])
    ⟨hfound.holds.kind, hv, Function.update_self ..⟩
  rw [← h.bound.bytes_eq] at hoffset
  refine ⟨n, env', hlt, hoffset, hset, fun k hk => ?_, hbound⟩
  by_cases hkn : k = n
  · subst hkn
    rw [Core.loadWord_storeWord, Function.update_self]
  · rw [loadWord_storeWord_slot (Ne.symm hkn) (by omega) (by omega), h.load k hk,
      Function.update_of_ne hkn]

end Words

end Arbor.Machine
