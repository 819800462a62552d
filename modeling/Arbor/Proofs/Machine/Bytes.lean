import Arbor.Lowering.Literal
import Arbor.Proofs.Machine.Footprint

/-!
This module contains the bytes of texts in the memory of a machine: the bytes of a text, also after its ASCII letters
are mapped to another case, the words that they are packed into, and the new bytes on the heap.
-/

namespace Arbor.Machine

open Assembly
open Lowering (wordOfBytes packBytes)

/-! Bytes of texts -/

section Texts

variable {s t : String} {c c' : Char} {first last delta : UInt8} {f : Char → Char} {g : UInt8 → UInt8}

theorem toList_toUTF8 (s : String) : s.toUTF8.toList = bytes s := by
  have hloop (bs : ByteArray) (i : Nat) (read : List UInt8) :
      ByteArray.toList.loop bs i read = read.reverse ++ bs.data.toList.drop i := by
    fun_induction ByteArray.toList.loop bs i read with
    | case1 i read h ih =>
      have hi : i < bs.data.toList.length := by simpa using h
      rw [ih, List.drop_eq_getElem_cons hi]
      simp [ByteArray.get!, h]
    | case2 i read h =>
      rw [List.drop_eq_nil_of_le (by simpa using Nat.le_of_not_lt h), List.append_nil]
  rw [ByteArray.toList, hloop]
  rfl

theorem bytes_eq_flatMap (s : String) : bytes s = s.toList.flatMap String.utf8EncodeChar := by
  rw [← bytes_ofList, String.ofList_toList]

theorem bytes_inj : bytes s = bytes t ↔ s = t := by
  refine ⟨fun h => String.toByteArray_inj.mp (ByteArray.ext (Array.toList_inj.mp h)), fun h => h ▸ rfl⟩

theorem zero_mem_bytes : 0 ∈ bytes s ↔ '\x00' ∈ s.toList := by
  rw [bytes_eq_flatMap, List.mem_flatMap]
  constructor
  · rintro ⟨c, hc, hmem⟩
    have hval := toNat_val_of_mem_utf8EncodeChar (by decide) hmem
    have heq : c = '\x00' := Char.ext (UInt32.toNat.inj hval)
    rwa [heq] at hc
  · exact fun hc => ⟨_, hc, by decide +kernel⟩

theorem bytes_map (h : ∀ c, String.utf8EncodeChar (f c) = (String.utf8EncodeChar c).map g) :
    bytes (s.map f) = (bytes s).map g := by
  simp only [bytes_eq_flatMap, String.toList_map, List.flatMap_map, List.map_flatMap, h]

def shiftByte (first last delta b : UInt8) : UInt8 :=
  if first ≤ b ∧ b ≤ last then b + delta else b

theorem utf8EncodeChar_of_ascii (hc : c.val.toNat < 128) : String.utf8EncodeChar c = [.ofNat c.val.toNat] := by
  unfold String.utf8EncodeChar
  simp only
  rw [if_pos (Nat.le_of_lt_succ hc)]

theorem toNat_ofNat_of_ascii (hc : c.val.toNat < 128) : (UInt8.ofNat c.val.toNat).toNat = c.val.toNat := by
  rw [UInt8.toNat_ofNat']
  omega

/--
The bytes of a character stay if it does not lie between two ASCII characters itself.
-/
theorem map_shiftByte_of_not (hlast : last.toNat < 128) (hc : ¬(first.toNat ≤ c.val.toNat ∧ c.val.toNat ≤ last.toNat)) :
    (String.utf8EncodeChar c).map (shiftByte first last delta) = String.utf8EncodeChar c := by
  nth_rewrite 2 [← List.map_id (String.utf8EncodeChar c)]
  apply List.map_congr_left
  intro b hb
  apply if_neg
  rintro ⟨hfirst, hlast'⟩
  rw [UInt8.le_iff_toNat_le] at hfirst hlast'
  rw [toNat_val_of_mem_utf8EncodeChar (by omega) hb] at hc
  exact hc ⟨hfirst, hlast'⟩

theorem map_shiftByte (hlast : last.toNat < 128) (hc : first.toNat ≤ c.val.toNat ∧ c.val.toNat ≤ last.toNat)
    (hc' : c'.val.toNat < 128) (hdelta : c'.val.toNat = (c.val.toNat + delta.toNat) % 256) :
    (String.utf8EncodeChar c).map (shiftByte first last delta) = String.utf8EncodeChar c' := by
  have hascii : c.val.toNat < 128 := by omega
  have hin : first ≤ .ofNat c.val.toNat ∧ .ofNat c.val.toNat ≤ last := by
    rwa [UInt8.le_iff_toNat_le, UInt8.le_iff_toNat_le, toNat_ofNat_of_ascii hascii]
  have hshifted : UInt8.ofNat c.val.toNat + delta = .ofNat c'.val.toNat := by
    rw [← UInt8.toNat_inj, UInt8.toNat_add, toNat_ofNat_of_ascii hascii, toNat_ofNat_of_ascii hc', hdelta]
  rw [utf8EncodeChar_of_ascii hascii, utf8EncodeChar_of_ascii hc', List.map_singleton, shiftByte, if_pos hin, hshifted]

theorem utf8EncodeChar_toUpper (c : Char) :
    String.utf8EncodeChar c.toUpper = (String.utf8EncodeChar c).map (shiftByte 97 122 224) := by
  unfold Char.toUpper
  split
  · next h =>
    have hc : 97 ≤ c.val.toNat ∧ c.val.toNat ≤ 122 := h
    have hval : (c.val + ('A'.val - 'a'.val)).toNat = c.val.toNat - 32 := by
      have hdelta : ('A'.val - 'a'.val).toNat = 2 ^ 32 - 32 := by decide
      rw [UInt32.toNat_add, hdelta]
      omega
    have hdelta : UInt8.toNat 224 = 224 := rfl
    have hin : (UInt8.toNat 97) ≤ c.val.toNat ∧ c.val.toNat ≤ UInt8.toNat 122 := hc
    symm
    apply map_shiftByte (by decide) hin <;> dsimp only <;> omega
  · next h =>
    have hout : ¬(UInt8.toNat 97 ≤ c.val.toNat ∧ c.val.toNat ≤ UInt8.toNat 122) := h
    rw [map_shiftByte_of_not (by decide) hout]

theorem utf8EncodeChar_toLower (c : Char) :
    String.utf8EncodeChar c.toLower = (String.utf8EncodeChar c).map (shiftByte 65 90 32) := by
  unfold Char.toLower
  split
  · next h =>
    have hc : 65 ≤ c.val.toNat ∧ c.val.toNat ≤ 90 := h
    have hval : (c.val + ('a'.val - 'A'.val)).toNat = c.val.toNat + 32 := by
      have hdelta : ('a'.val - 'A'.val).toNat = 32 := by decide
      rw [UInt32.toNat_add, hdelta]
      omega
    have hdelta : UInt8.toNat 32 = 32 := rfl
    have hin : (UInt8.toNat 65) ≤ c.val.toNat ∧ c.val.toNat ≤ UInt8.toNat 90 := hc
    symm
    apply map_shiftByte (by decide) hin <;> dsimp only <;> omega
  · next h =>
    have hout : ¬(UInt8.toNat 65 ≤ c.val.toNat ∧ c.val.toNat ≤ UInt8.toNat 90) := h
    rw [map_shiftByte_of_not (by decide) hout]

theorem bytes_toUpper (s : String) : bytes (s.map Char.toUpper) = (bytes s).map (shiftByte 97 122 224) :=
  bytes_map utf8EncodeChar_toUpper

theorem bytes_toLower (s : String) : bytes (s.map Char.toLower) = (bytes s).map (shiftByte 65 90 32) :=
  bytes_map utf8EncodeChar_toLower

theorem shiftByte_toUpper_eq_zero (b : BitVec 8) : shiftByte 97 122 224 ⟨b⟩ = 0 ↔ b = 0 := by
  revert b
  decide +kernel

theorem shiftByte_toLower_eq_zero (b : BitVec 8) : shiftByte 65 90 32 ⟨b⟩ = 0 ↔ b = 0 := by
  revert b
  decide +kernel

end Texts

/-! Bytes in the memory -/

def BytesAt (memory : Word → BitVec 8) : Word → List UInt8 → Prop
  | _, [] => True
  | a, x :: xs => memory a = x.toBitVec ∧ BytesAt memory (a + 1) xs

instance decidableBytesAt (memory : Word → BitVec 8) : ∀ a xs, Decidable (BytesAt memory a xs)
  | _, [] => .isTrue trivial
  | a, _ :: xs =>
    have := decidableBytesAt memory (a + 1) xs
    inferInstanceAs (Decidable (_ ∧ _))

section BytesAt

variable {memory memory' : Word → BitVec 8} {a : Word} {xs ys : List UInt8}

theorem add_ofNat_succ (a : Word) (i : Nat) : a + 1 + .ofNat 32 i = a + .ofNat 32 (i + 1) := by
  rw [BitVec.add_assoc, Nat.add_comm i 1, BitVec.ofNat_add]
  rfl

theorem bytesAt_append :
    BytesAt memory a (xs ++ ys) ↔ BytesAt memory a xs ∧ BytesAt memory (a + .ofNat 32 xs.length) ys := by
  induction xs generalizing a with
  | nil => simp [BytesAt]
  | cons x rest ih => rw [List.cons_append, BytesAt, BytesAt, ih, add_ofNat_succ, List.length_cons, and_assoc]

theorem BytesAt.congr (h : BytesAt memory a xs)
    (hmemory : ∀ i < xs.length, memory' (a + .ofNat 32 i) = memory (a + .ofNat 32 i)) : BytesAt memory' a xs := by
  induction xs generalizing a with
  | nil => trivial
  | cons x rest ih =>
    have hfirst := hmemory 0 (Nat.zero_lt_succ _)
    rw [BitVec.add_zero] at hfirst
    refine ⟨hfirst.trans h.1, ih h.2 fun i hi => ?_⟩
    rw [add_ofNat_succ]
    exact hmemory (i + 1) (Nat.succ_lt_succ hi)

end BytesAt

/-! Bytes on the heap -/

/--
Bytes were written at the pointer to the heap, which is behind them. Nothing else is written, and of the other registers
only scratch registers changed.
-/
structure Appended (core core' : Core) (xs : List UInt8) : Prop where
  pointer : (core'.get .hp).toNat = (core.get .hp).toNat + xs.length
  bytes : BytesAt core'.memory (core.get .hp) xs
  memory : ∀ a : Word, a.toNat < (core.get .hp).toNat ∨ (core'.get .hp).toNat ≤ a.toNat → core'.memory a = core.memory a
  registers : ∀ rd, rd ∉ .hp :: scratch → core'.get rd = core.get rd

namespace Appended

variable {core core' core'' : Core} {xs ys : List UInt8} {rd : Register} {w : Word} {b b₀ b₁ b₂ b₃ : UInt8}

theorem refl (core : Core) : Appended core core [] :=
  ⟨rfl, trivial, fun _ _ => rfl, fun _ _ => rfl⟩

theorem get_hp (h : Appended core core' xs) : core'.get .hp = core.get .hp + .ofNat 32 xs.length := by
  have hpointer := h.pointer
  bv_omega

theorem trans (h : Appended core core' xs) (h' : Appended core' core'' ys) : Appended core core'' (xs ++ ys) := by
  have hpointer := h.pointer
  have hpointer' := h'.pointer
  refine ⟨?_, bytesAt_append.mpr ⟨?_, ?_⟩, fun a ha => ?_, fun rd hrd => ?_⟩
  · rw [List.length_append]
    omega
  · apply h.bytes.congr
    intro i hi
    apply h'.memory
    bv_omega
  · rw [← h.get_hp]
    exact h'.bytes
  · rw [h'.memory a (by omega), h.memory a (by omega)]
  · rw [h'.registers rd hrd, h.registers rd hrd]

theorem of_changes (hmemory : core'.memory = core.memory) (hhp : core'.get .hp = core.get .hp)
    (hregisters : ∀ rd, rd ∉ .hp :: scratch → core'.get rd = core.get rd) : Appended core core' [] :=
  ⟨congrArg BitVec.toNat hhp, trivial, fun a _ => congrFun hmemory a, hregisters⟩

theorem set (h : Appended core core' xs) (hrd : rd ∈ scratch) : Appended core (core'.set rd w) xs := by
  have hne : .hp ≠ rd := by
    rintro rfl
    exact absurd hrd (by decide)
  have hset : Appended core' (core'.set rd w) [] := by
    refine of_changes rfl (Core.get_set_of_ne hne) fun rd' hrd' => Core.get_set_of_ne ?_
    rintro rfl
    exact hrd' (List.mem_cons_of_mem _ hrd)
  rw [← List.append_nil xs]
  exact h.trans hset

theorem byte (hroom : (core.get .hp).toNat + 1 < 2 ^ 32) :
    Appended core ((core.storeByte (core.get .hp) b.toBitVec).set .hp (core.get .hp + 1)) [b] := by
  have hpointer : (core.get .hp + 1).toNat = (core.get .hp).toNat + 1 := by bv_omega
  refine ⟨?_, ⟨if_pos rfl, trivial⟩, fun a ha => if_neg ?_, fun rd hrd => ?_⟩
  · rw [Core.get_set (by decide), hpointer]
    rfl
  · rw [Core.get_set (by decide), hpointer] at ha
    rintro rfl
    omega
  · rw [List.mem_cons, not_or] at hrd
    rw [Core.get_set_of_ne hrd.1, Core.get_storeByte]

theorem ofInt_wordOfBytes : BitVec.ofInt 32 (wordOfBytes b₀ b₁ b₂ b₃) =
    b₀.toBitVec.setWidth 32 ||| b₁.toBitVec.setWidth 32 <<< 8 ||| b₂.toBitVec.setWidth 32 <<< 16 |||
      b₃.toBitVec.setWidth 32 <<< 24 := by
  have hword (x : UInt32) : BitVec.ofInt 32 x.toInt32.toInt = x.toBitVec := BitVec.ofInt_toInt
  unfold wordOfBytes
  rw [hword]
  rfl

theorem extractLsb'_wordOfBytes : (BitVec.ofInt 32 (wordOfBytes b₀ b₁ b₂ b₃)).extractLsb' 0 8 = b₀.toBitVec ∧
    (BitVec.ofInt 32 (wordOfBytes b₀ b₁ b₂ b₃)).extractLsb' 8 8 = b₁.toBitVec ∧
    (BitVec.ofInt 32 (wordOfBytes b₀ b₁ b₂ b₃)).extractLsb' 16 8 = b₂.toBitVec ∧
    (BitVec.ofInt 32 (wordOfBytes b₀ b₁ b₂ b₃)).extractLsb' 24 8 = b₃.toBitVec := by
  rw [ofInt_wordOfBytes]
  refine ⟨?_, ?_, ?_, ?_⟩
  all_goals
    apply BitVec.eq_of_getLsbD_eq
    intro i hi
    simp [hi, BitVec.getLsbD_setWidth]
    grind

theorem bytesAt_storeWord (core : Core) (a w : Word) : BytesAt (core.storeWord a w).memory a
    [⟨w.extractLsb' 0 8⟩, ⟨w.extractLsb' 8 8⟩, ⟨w.extractLsb' 16 8⟩, ⟨w.extractLsb' 24 8⟩] := by
  have h₂ : a + 1 + 1 = a + 2 := by bv_omega
  have h₃ : a + 2 + 1 = a + 3 := by bv_omega
  have hne₀ : a ≠ a + 1 ∧ a ≠ a + 2 ∧ a ≠ a + 3 := by bv_omega
  have hne₁ : a + 1 ≠ a + 2 ∧ a + 1 ≠ a + 3 := by bv_omega
  have hne₂ : a + 2 ≠ a + 3 := by bv_omega
  simp only [BytesAt, Core.storeWord, Core.storeByte, h₂, h₃, hne₀, hne₁, hne₂, if_true, if_false, and_self]

theorem word (hroom : (core.get .hp).toNat + 4 < 2 ^ 32) :
    Appended core ((core.storeWord (core.get .hp) (.ofInt 32 (wordOfBytes b₀ b₁ b₂ b₃))).set .hp (core.get .hp + 4))
      [b₀, b₁, b₂, b₃] := by
  have hbytes := bytesAt_storeWord core (core.get .hp) (.ofInt 32 (wordOfBytes b₀ b₁ b₂ b₃))
  rw [extractLsb'_wordOfBytes.1, extractLsb'_wordOfBytes.2.1, extractLsb'_wordOfBytes.2.2.1,
    extractLsb'_wordOfBytes.2.2.2] at hbytes
  have hpointer : (core.get .hp + 4).toNat = (core.get .hp).toNat + 4 := by bv_omega
  refine ⟨?_, hbytes, fun a ha => ?_, fun rd hrd => ?_⟩
  · rw [Core.get_set (by decide), hpointer]
    rfl
  · rw [Core.get_set (by decide), hpointer] at ha
    exact Core.memory_storeWord (by bv_omega)
  · rw [List.mem_cons, not_or] at hrd
    rw [Core.get_set_of_ne hrd.1, Core.get_storeWord]

end Appended

end Arbor.Machine
