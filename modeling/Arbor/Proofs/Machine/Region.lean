import Arbor.Proofs.Machine.Cells
import Arbor.Proofs.Machine.Stack

/-!
This module contains the arrays in the memory of a machine: the region that an array takes up, and what is left of the
words of a region after a word was stored.
-/

namespace Arbor

def Scalar.isCell : Scalar → Bool
  | .int | .bool | .char => true
  | .float | .string => false

namespace Machine

open Assembly
open Lowering (SlotKind)

variable {core : Core} {a b w : Word} {P Q : Word → Prop}

theorem HasCell.isCell {scalar : Scalar} {v : Value} (h : HasCell (.scalar scalar) v) : scalar.isCell = true := by
  cases h <;> rfl

/-! Words in parts of the memory -/

def CoversWord (P : Word → Prop) (a : Word) : Prop :=
  ∀ j : Nat, j < 4 → P (a + .ofNat 32 j)

theorem exists_add_of_sub_lt (h : b - a < 4) : ∃ j : Nat, j < 4 ∧ b = a + .ofNat 32 j :=
  ⟨(b - a).toNat, h, by rw [BitVec.ofNat_toNat, BitVec.setWidth_eq, BitVec.add_comm, BitVec.sub_add_cancel]⟩

theorem CoversWord.apart (ha : CoversWord P a) (hb : CoversWord Q b) (h : ∀ x, P x → ¬Q x) : 4 ≤ b - a := by
  by_contra hlt
  obtain ⟨j, hj, heq⟩ := exists_add_of_sub_lt (BitVec.not_le.mp hlt)
  have hfirst := hb 0 (by decide)
  rw [BitVec.add_zero, heq] at hfirst
  exact h _ (ha j hj) hfirst

theorem CoversWord.loadWord_storeWord (ha : CoversWord P a) (hb : CoversWord Q b) (h : ∀ x, P x → ¬Q x) :
    (core.storeWord a w).loadWord b = core.loadWord b :=
  Core.loadWord_storeWord_of_apart (ha.apart hb h) (hb.apart ha fun x hx hx' => h x hx' hx)

/--
The bytes of a stack with room for a number of words below its base.
-/
def InStack (base : Word) (limit : Nat) (a : Word) : Prop :=
  (base - 1 - a).toNat < 4 * limit

theorem coversWord_slotAt {base : Word} {limit n : Nat} (hn : n < limit) (hlimit : 4 * limit ≤ 2 ^ 32) :
    CoversWord (InStack base limit) (slotAt base n) := by
  intro j hj
  unfold InStack slotAt
  bv_omega

/-! Regions -/

theorem slt_ofNat {i n : Nat} (hi : i ≤ n) (hn : n < 2 ^ 31) :
    (BitVec.ofNat 32 i).slt (.ofNat 32 n) = decide (i < n) := by
  have htoInt (m : Nat) (hm : m ≤ n) : (BitVec.ofNat 32 m).toInt = m := by
    rw [← BitVec.ofInt_natCast, BitVec.toInt_ofInt, Int.bmod_eq_of_le] <;> omega
  rw [BitVec.slt, htoInt i hi, htoInt n (Nat.le_refl _)]
  exact decide_eq_decide.mpr Int.ofNat_lt

/--
The part of the memory that an array takes up: the word of its length, and its elements from an address on.
-/
structure Region where
  address : Word
  length : Nat

namespace Region

def header (r : Region) : Word :=
  r.address - .ofNat 32 4

def element (r : Region) (i : Nat) : Word :=
  r.address + .ofNat 32 (4 * i)

def Covers (r : Region) (a : Word) : Prop :=
  (a - r.header).toNat < 4 * (r.length + 1)

def Fits (r : Region) : Prop :=
  4 * (r.length + 1) ≤ 2 ^ 32

def Apart (r r' : Region) : Prop :=
  ∀ a, r.Covers a → ¬r'.Covers a

variable {r r' : Region} {i j : Nat}

theorem Apart.symm (h : r.Apart r') : r'.Apart r :=
  fun a ha ha' => h a ha' ha

theorem Fits.coversWord_header (h : r.Fits) : CoversWord r.Covers r.header := by
  intro j hj
  unfold Fits at h
  unfold Covers
  bv_omega

theorem Fits.coversWord_element (h : r.Fits) (hi : i < r.length) : CoversWord r.Covers (r.element i) := by
  intro j hj
  unfold Fits at h
  unfold Covers header element
  bv_omega

theorem Fits.loadWord_header (h : r.Fits) (hi : i < r.length) :
    (core.storeWord (r.element i) w).loadWord r.header = core.loadWord r.header := by
  unfold Fits at h
  apply Core.loadWord_storeWord_of_apart <;> unfold header element <;> bv_omega

theorem Fits.loadWord_element (h : r.Fits) (hi : i < r.length) (hj : j < r.length) (hne : i ≠ j) :
    (core.storeWord (r.element i) w).loadWord (r.element j) = core.loadWord (r.element j) := by
  unfold Fits at h
  apply Core.loadWord_storeWord_of_apart <;> unfold element <;> bv_omega

theorem Fits.length_lt (h : r.Fits) : r.length < 2 ^ 31 := by
  unfold Fits at h
  omega

theorem Fits.slt_length (h : r.Fits) (hi : i ≤ r.length) :
    (BitVec.ofNat 32 i).slt (.ofNat 32 r.length) = decide (i < r.length) :=
  slt_ofNat hi h.length_lt

theorem Fits.ofNat_eq_zero (h : r.Fits) (hi : i ≤ r.length) : BitVec.ofNat 32 i = 0 ↔ i = 0 := by
  have hlength := h.length_lt
  bv_omega

theorem address_add_shift (r : Region) (i : Nat) : r.address + BitVec.ofNat 32 i <<< 2 = r.element i := by
  unfold element
  bv_omega

theorem address_add (r : Region) (i : Nat) : r.address + .ofInt 32 (i * wordBytes) = r.element i := by
  have hoffset : (i : Int) * wordBytes = ((4 * i : Nat) : Int) := by
    unfold wordBytes
    omega
  rw [hoffset, BitVec.ofInt_natCast]
  rfl

theorem element_add (r : Region) (i : Nat) : r.element i + .ofInt 32 wordBytes = r.element (i + 1) := by
  have hword : BitVec.ofInt 32 wordBytes = 4 := rfl
  rw [hword]
  unfold element
  bv_omega

theorem element_zero (r : Region) : r.element 0 = r.address := by
  rw [element, Nat.mul_zero, BitVec.add_zero]

end Region

/-! Arrays -/

/--
A region holds an array, given how words are loaded: its length, and the words of its elements.
-/
structure HasArray (load : Word → Word) (r : Region) (elem : SlotKind) (items : List Value) : Prop where
  length : items.length = r.length
  header : load r.header = .ofNat 32 r.length
  cells : ∀ v ∈ items, HasCell elem v
  words : ∀ i v, items[i]? = some v → load (r.element i) = wordOf v

namespace HasArray

variable {r : Region} {elem : SlotKind} {items : List Value} {v : Value} {i : Nat}

theorem lt_of_getElem? {load : Word → Word} (h : HasArray load r elem items) (hi : items[i]? = some v) :
    i < r.length := by
  rw [← h.length]
  exact (List.getElem?_eq_some_iff.mp hi).1

theorem storeWord (h : HasArray core.loadWord r elem items) (hr : r.Fits) (ha : CoversWord P a)
    (hapart : ∀ x, P x → ¬r.Covers x) : HasArray (core.storeWord a w).loadWord r elem items := by
  refine ⟨h.length, ?_, h.cells, fun i v hi => ?_⟩
  · rw [ha.loadWord_storeWord hr.coversWord_header hapart, h.header]
  · have hlt := h.lt_of_getElem? hi
    rw [ha.loadWord_storeWord (hr.coversWord_element hlt) hapart, h.words i v hi]

theorem set (h : HasArray core.loadWord r elem items) (hr : r.Fits) (hi : i < items.length) (hv : HasCell elem v) :
    HasArray (core.storeWord (r.element i) (wordOf v)).loadWord r elem (items.set i v) where
  length := by rw [List.length_set, h.length]
  header := by rw [hr.loadWord_header (h.length ▸ hi), h.header]
  cells u hu := by
    rcases List.mem_or_eq_of_mem_set hu with hu | rfl
    · exact h.cells u hu
    · exact hv
  words j u hj := by
    rw [List.getElem?_set] at hj
    split at hj
    · next heq =>
      subst heq
      cases hj
      exact Core.loadWord_storeWord
    · next hne =>
      rw [hr.loadWord_element (h.length ▸ hi) (h.lt_of_getElem? hj) hne, h.words j u hj]

end HasArray

end Machine

end Arbor
