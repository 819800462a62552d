import Arbor.Proofs.Machine.Basic
import Arbor.Text.Escape

/-!
This module contains the registers and the memory of a machine: what is read after something was written, the fixed
strings in the memory, and the bytes of the texts that are printed.
-/

namespace Arbor.Machine

open Assembly

namespace Core

variable {c c' : Core} {r r' : Register} {a b v w : Word}

/-! Registers -/

theorem get_set (hr : r ≠ .zero) : (c.set r w).get r = w := by
  cases r with
  | zero => exact absurd rfl hr
  | _ => rfl

theorem get_set_of_ne (h : r' ≠ r) : (c.set r w).get r' = c.get r' := by
  cases r' <;> simp [get, set, h]

@[simp]
theorem set_set : (c.set r v).set r w = c.set r w := by
  simp only [set, mk.injEq, and_true]
  funext r'
  split <;> rfl

theorem set_get (hr : r ≠ .zero) : c.set r (c.get r) = c := by
  have hget : c.get r = c.registers r := by
    cases r with
    | zero => exact absurd rfl hr
    | _ => rfl
  have hregisters : (fun r' => if r' = r then c.registers r else c.registers r') = c.registers := by
    funext r'
    split
    · next heq => rw [heq]
    · rfl
  rw [set, hget, hregisters]

theorem get_storeByte {x : BitVec 8} : (c.storeByte a x).get r = c.get r := by
  cases r <;> rfl

@[simp]
theorem get_storeWord : (c.storeWord a w).get r = c.get r := by
  cases r <;> rfl

theorem loadWord_set : (c.set r w).loadWord a = c.loadWord a :=
  rfl

@[simp]
theorem get_write {xs : List UInt8} : (c.write xs).get r = c.get r := by
  cases r <;> rfl

/-! Words in the memory -/

theorem append_bytes (w : Word) :
    w.extractLsb' 24 8 ++ w.extractLsb' 16 8 ++ w.extractLsb' 8 8 ++ w.extractLsb' 0 8 = w := by
  rw [BitVec.extractLsb'_append_extractLsb'_eq_extractLsb' (by rfl),
    BitVec.extractLsb'_append_extractLsb'_eq_extractLsb' (by rfl),
    BitVec.extractLsb'_append_extractLsb'_eq_extractLsb' (by rfl)]
  exact BitVec.extractLsb'_eq_self

theorem loadWord_of_bytes (h : ∀ x : Word, x - a < 4 → c'.memory x = c.memory x) : c'.loadWord a = c.loadWord a := by
  unfold loadWord
  rw [h a (by bv_omega), h (a + 1) (by bv_omega), h (a + 2) (by bv_omega), h (a + 3) (by bv_omega)]

theorem loadWord_congr (h : c'.memory = c.memory) : c'.loadWord a = c.loadWord a :=
  loadWord_of_bytes fun x _ => congrFun h x

theorem loadWord_storeWord : (c.storeWord a w).loadWord a = w := by
  have h₀ : a ≠ a + 1 ∧ a ≠ a + 2 ∧ a ≠ a + 3 := by bv_omega
  have h₁ : a + 1 ≠ a + 2 ∧ a + 1 ≠ a + 3 := by bv_omega
  have h₂ : a + 2 ≠ a + 3 := by bv_omega
  simp only [loadWord, storeWord, storeByte, h₀, h₁, h₂, if_true, if_false]
  exact append_bytes w

theorem memory_storeWord {x : Word} (h : 4 ≤ x - a) : (c.storeWord a w).memory x = c.memory x := by
  have h : x ≠ a ∧ x ≠ a + 1 ∧ x ≠ a + 2 ∧ x ≠ a + 3 := by bv_omega
  simp only [storeWord, storeByte, h, if_false]

theorem loadWord_storeWord_of_apart (hba : 4 ≤ b - a) (hab : 4 ≤ a - b) :
    (c.storeWord a w).loadWord b = c.loadWord b := by
  unfold loadWord
  rw [memory_storeWord hba, memory_storeWord (by bv_omega), memory_storeWord (by bv_omega),
    memory_storeWord (by bv_omega)]

end Core

/-! Texts -/

section Texts

variable {s t : String} {xs : List UInt8}

@[simp]
theorem bytes_append : bytes (s ++ t) = bytes s ++ bytes t := by
  simp [bytes, String.toUTF8]

theorem bytes_ofList (l : List Char) : bytes (.ofList l) = l.flatMap String.utf8EncodeChar := by
  simp [bytes, String.toUTF8, List.utf8Encode]

def newline : UInt8 := 10

theorem toNat_val_of_mem_utf8EncodeChar {c : Char} {b : UInt8} (hb : b.toNat < 128)
    (h : b ∈ String.utf8EncodeChar c) : c.val.toNat = b.toNat := by
  unfold String.utf8EncodeChar at h
  simp only at h
  split at h
  · simp only [List.mem_singleton, ← UInt8.toNat_inj, UInt8.toNat_ofNat'] at h
    omega
  -- Every byte of a longer code has its highest bit set.
  · split at h
    · simp only [List.mem_cons, ← UInt8.toNat_inj, UInt8.toNat_ofNat', List.not_mem_nil, or_false] at h
      omega
    · split at h
      all_goals
        simp only [List.mem_cons, ← UInt8.toNat_inj, UInt8.toNat_ofNat', List.not_mem_nil, or_false] at h
        omega

theorem newline_notMem_utf8EncodeChar {c : Char} (h : c ≠ '\n') :
    newline ∉ String.utf8EncodeChar c := by
  intro hmem
  have hval := toNat_val_of_mem_utf8EncodeChar (by decide) hmem
  exact h (Char.ext (UInt32.toNat.inj hval))

theorem newline_notMem_bytes {l : List Char} (h : '\n' ∉ l) : newline ∉ bytes (.ofList l) := by
  rw [bytes_ofList, List.mem_flatMap]
  rintro ⟨c, hc, hmem⟩
  exact newline_notMem_utf8EncodeChar (fun heq => h (heq ▸ hc)) hmem

theorem newline_notMem_repr (n : Nat) : newline ∉ bytes n.repr := by
  rw [Nat.repr_eq_ofList_toDigits]
  apply newline_notMem_bytes
  intro hmem
  have hdigit := Nat.isDigit_of_mem_toDigits (by decide) (by decide) hmem
  exact absurd hdigit (by decide)

theorem newline_notMem_toString (n : Int) : newline ∉ bytes (toString n) := by
  rw [Int.toString_eq_repr, Int.repr_eq_if]
  split
  · exact newline_notMem_repr _
  · rw [bytes_append, List.mem_append]
    rintro (h | h)
    · exact absurd h (by decide)
    · exact newline_notMem_repr _ h

end Texts

/-! Fixed strings -/

def content (s : FixedString) : String :=
  Text.unescape s.quoted

def zeroEnded (s : FixedString) : List UInt8 :=
  bytes (content s) ++ [0]

def Stores (L : Layout) (memory : Word → BitVec 8) : Prop :=
  ∀ (s : FixedString) (i : Nat) (b : UInt8), (zeroEnded s)[i]? = some b →
    memory (L.data s.label + .ofNat 32 i) = b.toBitVec

theorem stringAt_eq {memory : Word → BitVec 8} {xs : List UInt8} (hxs : 0 ∉ xs) {a : Word}
    (h : ∀ (i : Nat) (b : UInt8), (xs ++ [0])[i]? = some b → memory (a + .ofNat 32 i) = b.toBitVec)
    {n : Nat} (hn : xs.length < n) : stringAt memory a n = xs := by
  induction xs generalizing a n with
  | nil =>
    obtain ⟨n, rfl⟩ := Nat.exists_eq_succ_of_ne_zero (Nat.ne_of_gt hn)
    have hend := h 0 0 rfl
    rw [stringAt, if_pos (by simpa using hend)]
  | cons x rest ih =>
    obtain ⟨n, rfl⟩ := Nat.exists_eq_succ_of_ne_zero (Nat.ne_of_gt (Nat.zero_lt_of_lt hn))
    rw [List.mem_cons, not_or] at hxs
    have hfirst : memory a = x.toBitVec := by simpa using h 0 x rfl
    have hne : memory a ≠ 0 := by
      rw [hfirst]
      exact fun hzero => hxs.1 (UInt8.toBitVec_inj.mp hzero).symm
    rw [stringAt, if_neg hne, hfirst]
    refine congrArg (x :: ·) (ih hxs.2 ?_ (Nat.lt_of_succ_lt_succ hn))
    intro i b hb
    have hnext : a + 1 + .ofNat 32 i = a + .ofNat 32 (i + 1) := by
      rw [BitVec.add_assoc, Nat.add_comm i 1, BitVec.ofNat_add]
      rfl
    rw [hnext]
    exact h (i + 1) b hb

theorem stringAt_content {L : Layout} {memory : Word → BitVec 8} (h : Stores L memory) (s : FixedString) :
    stringAt memory (L.data s.label) (2 ^ 32) = bytes (content s) := by
  have hall : ∀ s ∈ FixedString.all, 0 ∉ bytes (content s) ∧ (bytes (content s)).length < 2 ^ 32 := by
    decide +kernel
  obtain ⟨hzero, hlength⟩ := hall s s.mem_all
  exact stringAt_eq hzero (h s) hlength

end Arbor.Machine
