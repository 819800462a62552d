import Arbor.Proofs.Machine.Chars
import Arbor.Proofs.Machine.Elements

/-!
This module contains the arrays that the routines on arrays are called with: what the words of elements stand for, also
strings, and how arrays and strings stay when the heap grows.
-/

namespace Arbor.Machine

open Assembly
open Lowering (elementCode)

/--
A word stands for the value of an element. A string is stored below the pointer to the heap.
-/
inductive ElementAt (core : Core) (w : Word) : Scalar → Value → Prop where
  | int {n : Int32} : w = wordOf (.int n) → ElementAt core w .int (.int n)
  | bool {b : Bool} : w = wordOf (.bool b) → ElementAt core w .bool (.bool b)
  | char {c : Char} : w = wordOf (.char c) → ElementAt core w .char (.char c)
  | text {s : String} : TextAt core w s → ElementAt core w .string (.text s)

structure ArrayAt (core : Core) (r : Region) (elem : Scalar) (items : List Value) : Prop where
  length : items.length = r.length
  header : core.loadWord r.header = .ofNat 32 r.length
  elements : ∀ i v, items[i]? = some v → ElementAt core (core.loadWord (r.element i)) elem v
  low : 4 ≤ r.address.toNat
  high : r.address.toNat + 4 * r.length ≤ (core.get .hp).toNat

/--
The heap has grown: no byte below the pointer to the heap changed.
-/
structure Extends (core core' : Core) : Prop where
  below : ∀ x : Word, x.toNat < (core.get .hp).toNat → core'.memory x = core.memory x
  pointer : (core.get .hp).toNat ≤ (core'.get .hp).toNat

section Contents

variable {L : Layout} {core core' : Core} {r : Region} {elem : Scalar} {items rest : List Value} {u v : Value}
  {a w w' : Word} {s : String} {i : Nat} {xs : List UInt8} {rs : List Register}

namespace Extends

theorem refl (core : Core) : Extends core core :=
  ⟨fun _ _ => rfl, Nat.le_refl _⟩

theorem of_memory (hmemory : core'.memory = core.memory) (hhp : core'.get .hp = core.get .hp) : Extends core core' :=
  ⟨fun x _ => congrFun hmemory x, Nat.le_of_eq (congrArg BitVec.toNat hhp.symm)⟩

theorem set {rd : Register} (h : Extends core core') (hrd : rd ≠ .hp) : Extends core (core'.set rd w) :=
  ⟨h.below, by rw [Core.get_set_of_ne (Ne.symm hrd)]; exact h.pointer⟩

theorem storeWord (h : Extends core core') (ha : (core.get .hp).toNat ≤ a.toNat) (hroom : a.toNat + 4 ≤ 2 ^ 32) :
    Extends core (core'.storeWord a w) := by
  refine ⟨fun x hx => ?_, by rw [Core.get_storeWord]; exact h.pointer⟩
  rw [Core.memory_storeWord (by bv_omega), h.below x hx]

theorem textAt (h : Extends core core') (hs : TextAt core w s) : TextAt core' w s :=
  textAt_iff.mpr ((textAt_iff.mp hs).of_below h.below h.pointer)

theorem elementAt (h : Extends core core') (hv : ElementAt core w elem v) : ElementAt core' w elem v := by
  cases hv with
  | int hw => exact .int hw
  | bool hw => exact .bool hw
  | char hw => exact .char hw
  | text hs => exact .text (h.textAt hs)

end Extends

theorem TextAt.set {rd : Register} (h : TextAt core w s) (hrd : rd ≠ .hp) : TextAt (core.set rd w') w s :=
  ((Extends.refl core).set hrd).textAt h

theorem OnlySets.extends (h : OnlySets rs core core') (hhp : .hp ∉ rs) : Extends core core' :=
  .of_memory h.memory (h.registers .hp hhp)

namespace ArrayAt

theorem fits (h : ArrayAt core r elem items) : r.Fits := by
  have hlow := h.low
  have hhigh := h.high
  have hlt := (core.get .hp).isLt
  unfold Region.Fits
  omega

theorem lt_of_getElem? (h : ArrayAt core r elem items) (hi : items[i]? = some v) : i < r.length := by
  rw [← h.length]
  exact (List.getElem?_eq_some_iff.mp hi).1

theorem of_drop (h : ArrayAt core r elem items) (hrest : items.drop i = u :: rest) :
    i < r.length ∧ items[i]? = some u ∧ items.drop (i + 1) = rest := by
  have hu : items[i]? = some u := by
    rw [← List.head?_drop, hrest]
    rfl
  refine ⟨h.lt_of_getElem? hu, hu, ?_⟩
  rw [← List.tail_drop, hrest]
  rfl

theorem of_extends (h : ArrayAt core r elem items) (hgrown : Extends core core') : ArrayAt core' r elem items := by
  have hlow := h.low
  have hhigh := h.high
  refine ⟨h.length, ?_, fun i v hi => ?_, hlow, Nat.le_trans hhigh hgrown.pointer⟩
  · rw [← h.header]
    apply Core.loadWord_of_bytes
    intro x hx
    apply hgrown.below
    unfold Region.header at hx
    bv_omega
  · have hlt := h.lt_of_getElem? hi
    have hword : core'.loadWord (r.element i) = core.loadWord (r.element i) := by
      apply Core.loadWord_of_bytes
      intro x hx
      apply hgrown.below
      unfold Region.element at hx
      bv_omega
    rw [hword]
    exact hgrown.elementAt (h.elements i v hi)

end ArrayAt

theorem position_succ (h : w = .ofNat 32 i) : w + 1 = .ofNat 32 (i + 1) := by
  rw [h, BitVec.ofNat_add]
  rfl

/-! Fixed strings -/

def FixedTexts (L : Layout) (core : Core) : Prop :=
  ∀ string : FixedString, TextAt core (L.data string.label) (content string)

theorem FixedTexts.of_extends (h : FixedTexts L core) (hgrown : Extends core core') : FixedTexts L core' :=
  fun string => hgrown.textAt (h string)

theorem getElem?_of_bytesAt {memory : Word → BitVec 8} {a : Word} (h : BytesAt memory a xs) (i : Nat) (b : UInt8)
    (hb : xs[i]? = some b) : memory (a + .ofNat 32 i) = b.toBitVec := by
  induction xs generalizing a i with
  | nil => cases hb
  | cons x rest ih =>
    cases i with
    | zero =>
      cases hb
      simpa using h.1
    | succ i =>
      rw [← add_ofNat_succ]
      exact ih h.2 i hb

theorem EndedAt.stringAt_eq {a : Word} (h : EndedAt core a xs) : stringAt core.memory a (2 ^ 32) = xs := by
  have hbelow := h.below
  exact Machine.stringAt_eq h.zero_notMem (getElem?_of_bytesAt h.stored) (by omega)

/-! Texts of elements -/

def joinedText (separator : String) (items : List Value) (n : Nat) : String :=
  separator.intercalate ((items.take n).map Value.display)

theorem joinedText_length (separator : String) (items : List Value) :
    joinedText separator items items.length = separator.intercalate (items.map Value.display) := by
  rw [joinedText, List.take_length]

theorem joinedText_succ {separator : String} (hu : items[i]? = some u) :
    joinedText separator items (i + 1) =
      joinedText separator items i ++ (if i = 0 then "" else separator) ++ u.display := by
  unfold joinedText
  rw [List.take_add_one, hu, Option.toList_some, List.map_append, List.map_singleton]
  split
  · next hi =>
    subst hi
    simp
  · next hi =>
    have hlt := (List.getElem?_eq_some_iff.mp hu).1
    rw [String.intercalate_append_of_ne_nil _ (List.cons_ne_nil _ _), String.intercalate_singleton]
    rw [Ne, List.map_eq_nil_iff, List.take_eq_nil_iff, not_or]
    exact ⟨hi, List.ne_nil_of_length_pos (Nat.zero_lt_of_lt hlt)⟩

/-! Comparison of elements -/

theorem word_eq_iff (hu : ElementAt core w elem u) (hv : ElementAt core w' elem v) (helem : elem ≠ .string) :
    w = w' ↔ u.looseEq? v = some true := by
  cases hu with
  | @int m hw =>
    cases hv with
    | @int n hw' =>
      rw [hw, hw']
      simp [wordOf, Value.looseEq?, Int32.toBitVec_inj]
  | @bool a hw =>
    cases hv with
    | @bool b hw' =>
      rw [hw, hw']
      cases a <;> cases b <;> decide
  | @char c hw =>
    cases hv with
    | @char c' hw' =>
      rw [hw, hw', wordOf_char, wordOf_char, UInt32.toBitVec_inj, Value.looseEq?, Option.some.injEq, beq_iff_eq,
        Char.ext_iff]
  | text => exact absurd rfl helem

end Contents

end Arbor.Machine
