import Arbor.Proofs.Machine.Digits
import Arbor.Proofs.Machine.Parsing

/-!
This module contains the run of the routine that writes an int: the digits that it appends, which come from the last one
to the first one, and their reversal in place.
-/

namespace Arbor.Machine

open Assembly
open Lowering (labelCount)

/-! The bytes of numbers -/

def digitBytes (n : Nat) : List UInt8 :=
  (Nat.toDigits 10 n).flatMap String.utf8EncodeChar

def lastDigit (n : Nat) : UInt8 :=
  .ofNat (n % 10 + 48)

theorem utf8EncodeChar_digitChar (n : Nat) : String.utf8EncodeChar (Nat.digitChar (n % 10)) = [lastDigit n] := by
  have hall : ∀ d < 10, String.utf8EncodeChar (Nat.digitChar d) = [.ofNat (d + 48)] := by decide
  exact hall _ (Nat.mod_lt n (by decide))

theorem digitBytes_eq (n : Nat) :
    digitBytes n = (if n / 10 = 0 then [] else digitBytes (n / 10)) ++ [lastDigit n] := by
  unfold digitBytes
  rw [← utf8EncodeChar_digitChar n]
  split
  · next h =>
    have hn : n < 10 := by omega
    rw [Nat.toDigits_of_lt_base hn, Nat.mod_eq_of_lt hn, List.flatMap_singleton]
    rfl
  · next h =>
    rw [Nat.toDigits_of_base_le (by decide) (by omega), List.flatMap_append, List.flatMap_singleton]

theorem bytes_toString (i : Int) :
    bytes (toString i) = (if i < 0 then [45] else []) ++ digitBytes i.natAbs := by
  rw [bytes_eq_flatMap, Decimal.toList_toString]
  split
  · rw [if_neg (by omega)]
    rfl
  · rw [if_pos (by omega)]
    rfl

theorem ended_toString (i : Int) : '\x00' ∉ (toString i).toList := by
  have hdigits : '\x00' ∉ Nat.toDigits 10 i.natAbs :=
    fun h => absurd (Decimal.isDigit_of_mem_toDigits h) (by decide)
  rw [Decimal.toList_toString]
  split
  · exact hdigits
  · exact fun h => hdigits (List.mem_of_ne_of_mem (by decide) h)

section Numerals

variable {L : Layout} {lines : List Line} {start : Hart} {core core₀ core' : Core} {xs ys zs : List UInt8}
  {k k' m lo : Nat} {top last : Label} {w : Word}

/-! Appended digits -/

theorem appended_of_digits (hunique : ∀ l, labelCount l lines ≤ 1) (hc : CodeAt lines k (digitLoop .a0 top) k')
    (h : Appended core₀ core xs) (hw : core.get .a0 = w) (hten : core.get .t3 = 10)
    (hroom : (core₀.get .hp).toNat + (xs.length + (digitBytes w.toNat).length) < 2 ^ 32)
    (hg : Reaches L lines start ⟨core, k⟩) :
    ∃ core', Reaches L lines start ⟨core', k'⟩ ∧ Appended core₀ core' (xs ++ (digitBytes w.toNat).reverse) ∧
      ∀ rd, rd ∉ [.hp, .t1, .a0] → core'.get rd = core.get rd := by
  obtain ⟨htop, hc⟩ := codeAt_label.mp hc
  obtain ⟨j, hdigit, hend⟩ := codeAt_append.mp hc
  simp only [codeAt_instruction, codeAt_nil] at hend
  obtain ⟨hmove, hbnez, rfl⟩ := hend
  -- The word is divided by ten in every round, down to zero.
  induction hn : w.toNat using Nat.strong_induction_on generalizing core xs w with
  | _ n ih =>
    subst hn
    have hpointer := h.pointer
    rw [digitBytes_eq, List.length_append, List.length_singleton] at hroom
    let core₁ := ((core.set .t1 (w % 10)).set .a0 (w / 10)).set .t1 (w % 10 + 48)
    let core₂ := (core₁.storeByte (core₁.get .hp) (lastDigit w.toNat).toBitVec).set .hp (core₁.get .hp + 1)
    have hbyte : (w % 10 + 48).setWidth 8 = (lastDigit w.toNat).toBitVec := by
      apply BitVec.eq_of_toNat_eq
      simp [lastDigit]
    have hrun : runLines L core (digitLines .a0) =
        some (core₁.storeByte (core₁.get .hp) (lastDigit w.toNat).toBitVec) := by
      rw [← hbyte]
      simp [digitLines, runLine, effect, registerOp, immediateOp, hten, hw, Core.get_set, Core.get_set_of_ne, core₁]
    have hg₂ : Reaches L lines start ⟨core₂, j + 1⟩ := ((hg.label htop).straight hdigit hrun).step
      (step_instruction hmove rfl)
    have h₁ : Appended core₀ core₁ xs := ((h.set (by decide)).set (by decide)).set (by decide)
    have h₂ : Appended core₀ core₂ (xs ++ [lastDigit w.toNat]) := by
      apply h₁.trans (Appended.byte _)
      have hhp : core₁.get .hp = core.get .hp := rfl
      rw [hhp]
      omega
    have hsame (rd : Register) (hrd : rd ∉ [.hp, .t1, .a0]) : core₂.get rd = core.get rd := by
      simp only [List.mem_cons, List.not_mem_nil, or_false, not_or] at hrd
      rw [Core.get_set_of_ne hrd.1, Core.get_storeByte, Core.get_set_of_ne hrd.2.1, Core.get_set_of_ne hrd.2.2,
        Core.get_set_of_ne hrd.2.1]
    have ha₀ : core₂.get .a0 = w / 10 := rfl
    have hquotient : (w / 10).toNat = w.toNat / 10 := BitVec.toNat_udiv
    have hg₃ := hg₂.branchZero hbnez htop (hunique _)
    rw [ha₀, zeroBranchTaken] at hg₃
    by_cases hlast : w.toNat / 10 = 0
    · have hzero : w / 10 = 0 := BitVec.eq_of_toNat_eq (hquotient.trans hlast)
      rw [hzero, if_neg (by decide)] at hg₃
      rw [digitBytes_eq, if_pos hlast]
      exact ⟨core₂, hg₃, h₂, hsame⟩
    · have hne : w / 10 ≠ 0 := fun hzero => hlast (hquotient ▸ congrArg BitVec.toNat hzero)
      rw [if_pos (decide_eq_true hne)] at hg₃
      rw [if_neg hlast] at hroom
      obtain ⟨core', hg', h', hsame'⟩ := ih (w.toNat / 10) (by omega) h₂ ha₀ ((hsame .t3 (by decide)).trans hten)
        (by rw [hquotient, List.length_append, List.length_singleton]; omega) hg₃ hquotient
      refine ⟨core', hg', ?_, fun rd hrd => (hsame' rd hrd).trans (hsame rd hrd)⟩
      rw [digitBytes_eq, if_neg hlast, List.reverse_append, List.reverse_singleton, ← List.append_assoc]
      exact h'

/-! Reversal -/

theorem runLines_swapLines {x y : UInt8} (hx : core.memory (core.get .t2) = x.toBitVec)
    (hy : core.memory (core.get .t3) = y.toBitVec) :
    ∃ core', runLines L core swapLines = some core' ∧
      core'.memory = ((core.storeByte (core.get .t2) y.toBitVec).storeByte (core.get .t3) x.toBitVec).memory ∧
      core'.get .t2 = core.get .t2 + 1 ∧ core'.get .t3 = core.get .t3 - 1 ∧
      ∀ rd, rd ∉ [.t1, .t2, .t3, .t4] → core'.get rd = core.get rd := by
  have hlast : core.get .t3 + 4294967295#32 = core.get .t3 - 1 := by
    rw [BitVec.sub_eq_add_neg]
    rfl
  let core₁ := (core.set .t1 (x.toBitVec.signExtend 32)).set .t4 (y.toBitVec.signExtend 32)
  let core₂ := (core₁.storeByte (core.get .t2) y.toBitVec).storeByte (core.get .t3) x.toBitVec
  have hrun : runLines L core swapLines = some ((core₂.set .t2 (core.get .t2 + 1)).set .t3 (core.get .t3 - 1)) := by
    have hmemory (v : Word) : (core.set .t1 v).memory = core.memory := rfl
    simp [swapLines, runLine, effect, immediateOp, Core.get_set, Core.get_set_of_ne, Core.get_storeByte,
      setWidth_signExtend, hx, hy, hmemory, hlast, core₁, core₂]
  refine ⟨_, hrun, rfl, rfl, rfl, fun rd hrd => ?_⟩
  simp only [List.mem_cons, List.not_mem_nil, or_false, not_or] at hrd
  rw [Core.get_set_of_ne hrd.2.2.1, Core.get_set_of_ne hrd.2.1, Core.get_storeByte, Core.get_storeByte,
    Core.get_set_of_ne hrd.2.2.2, Core.get_set_of_ne hrd.1]

/--
Bytes are reversed if the ones at both ends are swapped and the ones between are reversed.
-/
theorem bytesAt_reverse {memory : Word → BitVec 8} {a : Word} {x y : UInt8} (hfirst : memory a = y.toBitVec)
    (hzs : BytesAt memory (a + 1) zs.reverse) (hlast : memory (a + 1 + .ofNat 32 zs.length) = x.toBitVec) :
    BytesAt memory a (x :: (zs ++ [y])).reverse := by
  rw [List.reverse_cons, List.reverse_append, List.reverse_singleton, List.append_assoc, List.singleton_append]
  refine ⟨hfirst, bytesAt_append.mpr ⟨hzs, ?_, trivial⟩⟩
  rwa [List.length_reverse]

theorem Reaches.swapped {x y : UInt8} (hunique : ∀ l, labelCount l lines ≤ 1)
    (hc : CodeAt lines k (reverseLoop top last) k') (hx : core.memory (core.get .t2) = x.toBitVec)
    (hy : core.memory (core.get .t3) = y.toBitVec) (hlt : (core.get .t2).slt (core.get .t3) = true)
    (hg : Reaches L lines start ⟨core, k⟩) :
    ∃ core', Reaches L lines start ⟨core', k⟩ ∧ core'.memory (core.get .t2) = y.toBitVec ∧
      core'.memory (core.get .t3) = x.toBitVec ∧
      (∀ a, a ≠ core.get .t2 → a ≠ core.get .t3 → core'.memory a = core.memory a) ∧
      core'.get .t2 = core.get .t2 + 1 ∧ core'.get .t3 = core.get .t3 - 1 ∧
      ∀ rd, rd ∉ [.t1, .t2, .t3, .t4] → core'.get rd = core.get rd := by
  obtain ⟨htop, hc⟩ := codeAt_label.mp hc
  obtain ⟨hbge, hc⟩ := codeAt_instruction.mp hc
  obtain ⟨j, hswap, hend⟩ := codeAt_append.mp hc
  simp only [codeAt_instruction, codeAt_label, codeAt_nil] at hend
  obtain ⟨hagain, hdone, -⟩ := hend
  have hne : core.get .t2 ≠ core.get .t3 := by
    intro heq
    rw [heq, slt_iff] at hlt
    omega
  have hg₁ := (hg.label htop).branch hbge hdone (hunique _)
  rw [branchTaken, hlt, if_neg (by decide)] at hg₁
  obtain ⟨core', hrun, hmemory, hregisters⟩ := runLines_swapLines (L := L) hx hy
  refine ⟨core', (hg₁.straight hswap hrun).jump hagain htop (hunique _), ?_, ?_, fun a h₂ h₃ => ?_, hregisters⟩
  · rw [hmemory]
    exact (if_neg hne).trans (if_pos rfl)
  · rw [hmemory]
    exact if_pos rfl
  · rw [hmemory]
    exact (if_neg h₃).trans (if_neg h₂)

theorem Reaches.met (hunique : ∀ l, labelCount l lines ≤ 1) (hc : CodeAt lines k (reverseLoop top last) k')
    (hge : (core.get .t2).slt (core.get .t3) = false) (hg : Reaches L lines start ⟨core, k⟩) :
    Reaches L lines start ⟨core, k'⟩ := by
  obtain ⟨htop, hc⟩ := codeAt_label.mp hc
  obtain ⟨hbge, hc⟩ := codeAt_instruction.mp hc
  obtain ⟨j, -, hend⟩ := codeAt_append.mp hc
  simp only [codeAt_instruction, codeAt_label, codeAt_nil] at hend
  obtain ⟨-, hdone, rfl⟩ := hend
  have hg₁ := (hg.label htop).branch hbge hdone (hunique _)
  rw [branchTaken, hge, if_pos (by decide)] at hg₁
  exact hg₁.label hdone

/--
The bytes from the address in `t2` up to the one in `t3` are reversed. The loop compares the addresses as signed
numbers, so all of them must be in one half of the memory.
-/
theorem Reaches.reverse (hunique : ∀ l, labelCount l lines ≤ 1) (hc : CodeAt lines k (reverseLoop top last) k')
    (hzs : BytesAt core.memory (core.get .t2) zs)
    (hlast : (core.get .t3).toNat + 1 = (core.get .t2).toNat + zs.length)
    (hlow : lo ≤ (core.get .t2).toNat ∧ lo ≤ (core.get .t3).toNat)
    (hhalf : (core.get .t2).toNat < 2 ^ 31 ∧ (core.get .t2).toNat + zs.length ≤ 2 ^ 31 ∨ 2 ^ 31 ≤ lo)
    (hg : Reaches L lines start ⟨core, k⟩) :
    ∃ core', Reaches L lines start ⟨core', k'⟩ ∧ BytesAt core'.memory (core.get .t2) zs.reverse ∧
      (∀ a : Word, a.toNat < (core.get .t2).toNat ∨ (core.get .t2).toNat + zs.length ≤ a.toNat →
        core'.memory a = core.memory a) ∧
      ∀ rd, rd ∉ [.t1, .t2, .t3, .t4] → core'.get rd = core.get rd := by
  have hstop {core : Core} (hle : (core.get .t3).toNat ≤ (core.get .t2).toNat)
      (hhalf : (core.get .t2).toNat < 2 ^ 31 ∨ 2 ^ 31 ≤ (core.get .t3).toNat)
      (hg : Reaches L lines start ⟨core, k⟩) : Reaches L lines start ⟨core, k'⟩ := by
    apply hg.met hunique hc
    rw [← Bool.not_eq_true, slt_iff]
    omega
  -- A round takes off both ends.
  induction zs using List.bidirectionalRec generalizing core with
  | nil =>
    rw [List.length_nil] at hlast hhalf
    exact ⟨core, hstop (by omega) (by omega) hg, hzs, fun _ _ => rfl, fun _ _ => rfl⟩
  | singleton z =>
    rw [List.length_singleton] at hlast hhalf
    exact ⟨core, hstop (by omega) (by omega) hg, hzs, fun _ _ => rfl, fun _ _ => rfl⟩
  | cons_append x zs y ih =>
    rw [List.length_cons, List.length_append, List.length_singleton] at hlast hhalf
    obtain ⟨hx, hzs⟩ := hzs
    obtain ⟨hzs, hy⟩ := bytesAt_append.mp hzs
    have haddress : core.get .t2 + 1 + .ofNat 32 zs.length = core.get .t3 := by bv_omega
    rw [haddress] at hy
    have hlt : (core.get .t2).slt (core.get .t3) = true := by
      rw [slt_iff]
      omega
    obtain ⟨core₁, hg₁, hfirst, hfinal, hother, h₂, h₃, hsame⟩ := hg.swapped hunique hc hx hy.1 hlt
    have hfirst₁ : (core₁.get .t2).toNat = (core.get .t2).toNat + 1 := by
      rw [h₂]
      bv_omega
    have hlast₁ : (core₁.get .t3).toNat + 1 = (core.get .t3).toNat := by
      rw [h₃]
      bv_omega
    have hzs₁ : BytesAt core₁.memory (core₁.get .t2) zs := by
      rw [h₂]
      apply hzs.congr
      intro i hi
      apply hother <;> bv_omega
    obtain ⟨core', hg', hreversed, hmemory', hsame'⟩ := ih hzs₁ (by omega) (by omega) (by omega) hg₁
    rw [hfirst₁] at hmemory'
    rw [h₂] at hreversed
    refine ⟨core', hg', bytesAt_reverse ?_ hreversed ?_, fun a ha => ?_, fun rd hrd =>
      (hsame' rd hrd).trans (hsame rd hrd)⟩
    · rw [hmemory' _ (.inl (by omega)), hfirst]
    · rw [haddress, hmemory' _ (.inr (by omega)), hfinal]
    · rw [List.length_cons, List.length_append, List.length_singleton] at ha
      rw [hmemory' a (by omega)]
      apply hother
      · rintro rfl
        omega
      · rintro rfl
        omega

/-! Texts of ints -/

theorem Appended.overwrite (h : Appended core₀ core (xs ++ ys)) (hlength : zs.length = ys.length)
    (hbytes : BytesAt core'.memory (core₀.get .hp + .ofNat 32 xs.length) zs)
    (hmemory : ∀ a : Word, a.toNat < (core₀.get .hp).toNat + xs.length ∨ (core.get .hp).toNat ≤ a.toNat →
      core'.memory a = core.memory a)
    (hhp : core'.get .hp = core.get .hp) (hregisters : ∀ rd, rd ∉ scratch → core'.get rd = core.get rd) :
    Appended core₀ core' (xs ++ zs) := by
  have hpointer := h.pointer
  rw [List.length_append] at hpointer
  refine ⟨?_, bytesAt_append.mpr ⟨?_, hbytes⟩, fun a ha => ?_, fun rd hrd => ?_⟩
  · rw [hhp, hpointer, List.length_append, hlength]
  · apply (bytesAt_append.mp h.bytes).1.congr
    intro i hi
    apply hmemory
    bv_omega
  · rw [hhp] at ha
    rw [hmemory a (by omega), h.memory a ha]
  · rw [List.mem_cons, not_or] at hrd
    rw [hregisters rd hrd.2, h.registers rd (by simp [hrd])]

theorem appended_of_appendDigits {r : Routine} (hunique : ∀ l, labelCount l lines ≤ 1)
    (hc : CodeAt lines k (Routine.appendDigits r .a0) k') (h : Appended core₀ core xs) (hw : core.get .a0 = w)
    (hroom : (core₀.get .hp).toNat + (xs ++ digitBytes w.toNat).length < 2 ^ 32)
    (hhalf : (core₀.get .hp).toNat + (xs ++ digitBytes w.toNat).length ≤ 2 ^ 31 ∨ 2 ^ 31 ≤ (core₀.get .hp).toNat)
    (hg : Reaches L lines start ⟨core, k⟩) :
    ∃ core', Reaches L lines start ⟨core', k'⟩ ∧ Appended core₀ core' (xs ++ digitBytes w.toNat) ∧
      ∀ rd, rd ∉ [.hp, .t1, .t2, .t3, .t4, .a0] → core'.get rd = core.get rd := by
  rw [appendDigits_eq] at hc
  obtain ⟨i₃, hc, hreverse⟩ := codeAt_append.mp hc
  obtain ⟨i₂, hc, hlast⟩ := codeAt_append.mp hc
  obtain ⟨i₁, hstart, hdigits⟩ := codeAt_append.mp hc
  have hdigit : 0 < (digitBytes w.toNat).length := by
    rw [digitBytes_eq, List.length_append, List.length_singleton]
    exact Nat.succ_pos _
  rw [List.length_append] at hroom hhalf
  let core₁ := (core.set .t2 (core.get .hp)).set .t3 10
  have hg₁ : Reaches L lines start ⟨core₁, i₁⟩ := hg.straight hstart rfl
  have h₁ : Appended core₀ core₁ xs := (h.set (by decide)).set (by decide)
  obtain ⟨core₂, hg₂, h₂, hsame₂⟩ := appended_of_digits hunique hdigits h₁ hw rfl hroom hg₁
  have hpointer := h₂.pointer
  rw [List.length_append, List.length_reverse] at hpointer
  let core₃ := core₂.set .t3 (core₂.get .hp + .ofInt 32 (-1))
  have hg₃ : Reaches L lines start ⟨core₃, i₃⟩ := hg₂.straight hlast rfl
  -- What was written before, a minus sign, is not reversed.
  have ht₂ : core₃.get .t2 = core₀.get .hp + .ofNat 32 xs.length := by
    rw [Core.get_set_of_ne (by decide), hsame₂ .t2 (by decide), ← h.get_hp]
    rfl
  have ht₃ : (core₃.get .t3).toNat + 1 = (core₂.get .hp).toNat := by
    have hvalue : core₃.get .t3 = core₂.get .hp + -1 := rfl
    rw [hvalue]
    bv_omega
  have hfirst : (core₃.get .t2).toNat = (core₀.get .hp).toNat + xs.length := by
    rw [ht₂]
    bv_omega
  have hbytes : BytesAt core₃.memory (core₃.get .t2) (digitBytes w.toNat).reverse := by
    rw [ht₂]
    exact (bytesAt_append.mp h₂.bytes).2
  have hend : (core₃.get .t3).toNat + 1 = (core₃.get .t2).toNat + (digitBytes w.toNat).reverse.length := by
    rw [List.length_reverse]
    omega
  have hlow : (core₀.get .hp).toNat ≤ (core₃.get .t2).toNat ∧ (core₀.get .hp).toNat ≤ (core₃.get .t3).toNat := by omega
  have hhalf : (core₃.get .t2).toNat < 2 ^ 31 ∧
      (core₃.get .t2).toNat + (digitBytes w.toNat).reverse.length ≤ 2 ^ 31 ∨ 2 ^ 31 ≤ (core₀.get .hp).toNat := by
    rw [List.length_reverse]
    omega
  obtain ⟨core', hg', hreversed, hmemory, hsame⟩ := hg₃.reverse hunique hreverse hbytes hend hlow hhalf
  rw [List.reverse_reverse, ht₂] at hreversed
  rw [List.length_reverse] at hmemory
  have hkept (rd : Register) (hrd : rd ∉ [.t1, .t2, .t3, .t4]) : core'.get rd = core₂.get rd := by
    rw [hsame rd hrd, Core.get_set_of_ne]
    rintro rfl
    exact hrd (by decide)
  refine ⟨core', hg', h₂.overwrite (List.length_reverse).symm hreversed (fun a ha => ?_) (hkept .hp (by decide))
    fun rd hrd => hkept rd fun hmem => hrd ?_, fun rd hrd => ?_⟩
  · rw [hmemory a (by omega)]
    rfl
  · exact (by decide : [Register.t1, .t2, .t3, .t4] ⊆ scratch) hmem
  · simp only [List.mem_cons, List.not_mem_nil, or_false, not_or] at hrd
    rw [hkept rd (by simp [hrd]), hsame₂ rd (by simp [hrd]), Core.get_set_of_ne hrd.2.2.2.1,
      Core.get_set_of_ne hrd.2.2.1]

def minusLines (positive : Label) : List Line :=
  [.bgez .a0 positive] ++ Routine.appendMinus ++ [.neg .a0 .a0, .label positive]

theorem intToStringBody_eq : Routine.intToStringBody =
    .mv .t0 .hp :: (minusLines (Routine.intToString.place "positive") ++
      (Routine.appendDigits .intToString .a0 ++ finishString .t0)) :=
  rfl

/--
The magnitude is read as an unsigned number, so that of the lowest number is right, although it is its own negation.
-/
theorem appended_of_minusLines (hunique : ∀ l, labelCount l lines ≤ 1)
    (hc : CodeAt lines k (minusLines top) k') (hroom : (core.get .hp).toNat + 1 < 2 ^ 32)
    (hg : Reaches L lines start ⟨core, k⟩) :
    ∃ core', Reaches L lines start ⟨core', k'⟩ ∧
      Appended core core' (if (core.get .a0).toInt < 0 then [45] else []) ∧
      (core'.get .a0).toNat = (core.get .a0).toInt.natAbs ∧
      ∀ rd, rd ∉ [.hp, .t1, .a0] → core'.get rd = core.get rd := by
  obtain ⟨j, hc, hend⟩ := codeAt_append.mp hc
  obtain ⟨i, hbgez, hminus⟩ := codeAt_append.mp hc
  simp only [codeAt_instruction, codeAt_label, codeAt_nil] at hbgez hend
  obtain ⟨hbgez, rfl⟩ := hbgez
  obtain ⟨hneg, hpositive, rfl⟩ := hend
  have hsign : (core.get .a0).slt 0 = decide ((core.get .a0).toInt < 0) := rfl
  have hword := BitVec.toInt_eq_toNat_cond (core.get .a0)
  have hlt := (core.get .a0).isLt
  have hg₁ := hg.branchZero hbgez hpositive (hunique _)
  rw [zeroBranchTaken, hsign] at hg₁
  by_cases hnegative : (core.get .a0).toInt < 0
  · rw [if_pos hnegative]
    rw [decide_eq_true hnegative, if_neg (by decide)] at hg₁
    let core₁ := core.set .t1 (.ofInt 32 (charCode '-'))
    let core₂ := (core₁.storeByte (core₁.get .hp) (45 : UInt8).toBitVec).set .hp (core₁.get .hp + 1)
    have hg₂ : Reaches L lines start ⟨core₂, j⟩ := hg₁.straight hminus (by
      simp [Routine.appendMinus, appendByte, runLine, effect, immediateOp, Core.get_storeByte, Core.get_set, core₁,
        core₂]
      rfl)
    have hg₃ := (hg₂.step (step_instruction hneg rfl)).label hpositive
    have h₁ : Appended core core₁ [] := (Appended.refl core).set (by decide)
    refine ⟨_, hg₃, (h₁.trans (Appended.byte hroom)).set (by decide), ?_, fun rd hrd => ?_⟩
    · have hvalue : core₂.get .a0 = core.get .a0 := rfl
      rw [Core.get_set (by decide), moveOp, hvalue, BitVec.toNat_neg]
      split at hword <;> omega
    · simp only [List.mem_cons, List.not_mem_nil, or_false, not_or] at hrd
      rw [Core.get_set_of_ne hrd.2.2, Core.get_set_of_ne hrd.1, Core.get_storeByte, Core.get_set_of_ne hrd.2.1]
  · rw [if_neg hnegative]
    rw [decide_eq_false hnegative, if_pos (by decide)] at hg₁
    refine ⟨core, hg₁.label hpositive, .refl core, ?_, fun _ _ => rfl⟩
    split at hword <;> omega

/--
The routine that writes an int returns its text. The addresses of the text are compared as signed numbers, so it has to
be in one half of the memory.
-/
theorem returned_intToString {n : Int32} (hlinked : Linked L lines)
    (hcall : lines[m]? = some (.jal Routine.intToString.label)) (hlength : m + 1 < lines.length)
    (hg : Reaches L lines start ⟨core, m⟩) (hn : core.get .a0 = n.toBitVec) (haligned : (core.get .hp).toNat % 4 = 0)
    (hroom : (core.get .hp).toNat + textSize (toString n.toInt) < 2 ^ 32)
    (hhalf : (core.get .hp).toNat + textSize (toString n.toInt) ≤ 2 ^ 31 ∨ 2 ^ 31 ≤ (core.get .hp).toNat) :
    ∃ core', Reaches L lines start ⟨core', m + 1⟩ ∧ Returned core core' (toString n.toInt) := by
  apply hlinked.returns hcall hlength hg
  intro i j hc hret hg
  have hrooms := hroom
  unfold textSize at hrooms hhalf
  let core₀ := core.set .ra (L.code (m + 1))
  have hhp : core₀.get .hp = core.get .hp := rfl
  have hc : CodeAt lines i Routine.intToStringBody j := hc
  rw [intToStringBody_eq] at hc
  obtain ⟨hmv, hc⟩ := codeAt_instruction.mp hc
  obtain ⟨i₁, hminus, hc⟩ := codeAt_append.mp hc
  obtain ⟨i₂, hdigits, hfinish⟩ := codeAt_append.mp hc
  let core₁ := core₀.set .t0 (core₀.get .hp)
  have h₁ : Appended core₀ core₁ [] := (Appended.refl core₀).set (by decide)
  have hg₁ : Reaches L lines start ⟨core₁, i + 1⟩ := hg.step (step_instruction hmv rfl)
  have hroom₁ : (core₁.get .hp).toNat + 1 < 2 ^ 32 := by
    have hhp₁ : core₁.get .hp = core.get .hp := rfl
    rw [hhp₁]
    omega
  obtain ⟨core₂, hg₂, h₂, hmagnitude, hsame₂⟩ := appended_of_minusLines hlinked.unique hminus hroom₁ hg₁
  have hword : (core₁.get .a0).toInt = n.toInt := congrArg BitVec.toInt hn
  have hbytes := bytes_toString n.toInt
  rw [hword] at hmagnitude h₂
  rw [← hmagnitude] at hbytes
  have h₂ : Appended core₀ core₂ (if n.toInt < 0 then [45] else []) := h₁.trans h₂
  obtain ⟨core₃, hg₃, h₃, hsame₃⟩ := appended_of_appendDigits hlinked.unique hdigits h₂ rfl
    (by rw [← hbytes, hhp]; omega) (by rw [← hbytes, hhp]; omega) hg₂
  rw [← hbytes] at h₃
  have hkept (rd : Register) (hrd : rd ∉ [.hp, .t1, .t2, .t3, .t4, .a0]) : core₃.get rd = core₁.get rd := by
    rw [hsame₃ rd hrd, hsame₂]
    exact fun hmem => hrd ((by decide : [Register.hp, .t1, .a0] ⊆ [.hp, .t1, .t2, .t3, .t4, .a0]) hmem)
  obtain ⟨core₄, hg₄, h₄, hra⟩ := returned_of_finish (ended_toString _) h₃ haligned (hkept .t0 (by decide)) hroom
    hg₃ hfinish
  refine ⟨core₄, j, hg₄, hret, ?_, h₄.of_setRa⟩
  rw [hra, hkept .ra (by decide)]
  rfl

/--
The routines write an int as the text that the evaluator shows, at the pointer to the heap, and read the int back from
this text wherever it is. So does the evaluator. The addresses of the text are below 2 ^ 31.
-/
theorem intToString_parseInt {n : Int32} (hlinked : Linked L lines)
    (hcall : lines[m]? = some (.jal Routine.intToString.label)) (hlength : m + 1 < lines.length)
    (hn : core.get .a0 = n.toBitVec) (haligned : (core.get .hp).toNat % 4 = 0)
    (hroom : (core.get .hp).toNat + textSize (toString n.toInt) ≤ 2 ^ 31) :
    ∃ s core', Embedded.apply .toText [.int n] = .ok (.text s) ∧ Reaches L lines ⟨core, m⟩ ⟨core', m + 1⟩ ∧
      Returned core core' s ∧ Embedded.apply .parseInt [.text s] = .ok (.int n) ∧
      ∀ {core₁ : Core} {m₁ : Nat}, lines[m₁]? = some (.jal Routine.parseInt.label) → m₁ + 1 < lines.length →
        BytesAt core₁.memory (core₁.get .a0) (bytes s ++ [0]) →
        ∃ core₂, Reaches L lines ⟨core₁, m₁⟩ ⟨core₂, m₁ + 1⟩ ∧ Answered core₁ core₂ n.toBitVec := by
  obtain ⟨core', hg, h⟩ := returned_intToString hlinked hcall hlength (.refl _) hn haligned (by omega) (.inl hroom)
  have htrim : (Text.trim (toString n.toInt)).toList = (toString n.toInt).toList := by
    rw [Text.trim, String.toList_ofList, Decimal.trimList_toString]
  have hread : Decimal.readInt? (Text.trim (toString n.toInt)).toList = some n.toInt := by
    rw [htrim, Decimal.readInt?_toString]
  have happly := apply_parseInt hread ⟨n.le_toInt, n.toInt_lt⟩
  rw [Int32.ofInt_toInt] at happly
  refine ⟨toString n.toInt, core', rfl, hg, h, happly, fun hcall₁ hlength₁ hs => ?_⟩
  have hleading : Decimal.leadingInt (toString n.toInt).toList = n.toInt := by
    apply Decimal.leadingInt_eq_of_readInt? (Decimal.startsInt_toString _)
    rw [Decimal.trimList_toString, Decimal.readInt?_toString]
  have hword : BitVec.ofInt 32 n.toInt = n.toBitVec := BitVec.ofInt_toInt
  have hanswered := answered_parseInt hlinked hcall₁ hlength₁ (.refl _) hs
  rwa [hleading, hword] at hanswered

end Numerals

def roundTripCode : List Line :=
  [.jal Routine.intToString.label, .jal Routine.parseInt.label, .j (.named "end")] ++
    [Routine.intToString, Routine.parseInt].flatMap Routine.lines

def lowestCore : Core where
  registers r :=
    match r with
    | .a0 => .intMin 32
    | .hp => 0x10040000
    | .sp => 0x7fffeffc
    | _ => 0
  memory := usualMemory
  output := []

theorem intToString_parseInt_lowest : Linked (.usual roundTripCode) roundTripCode ∧
    lowestCore.get .a0 = Int32.minValue.toBitVec ∧ (lowestCore.get .hp).toNat % 4 = 0 ∧
    (lowestCore.get .hp).toNat + textSize (toString Int32.minValue.toInt) ≤ 2 ^ 31 ∧
    ∃ core' core'', Reaches (.usual roundTripCode) roundTripCode ⟨lowestCore, 0⟩ ⟨core', 1⟩ ∧
      Returned lowestCore core' "-2147483648" ∧
      Reaches (.usual roundTripCode) roundTripCode ⟨core', 1⟩ ⟨core'', 2⟩ ∧
      core''.get .a0 = Int32.minValue.toBitVec := by
  have hlinked : Linked (.usual roundTripCode) roundTripCode :=
    linked_usual_routines (by decide +kernel) (by decide +kernel) (by decide +kernel)
  have hroom : (lowestCore.get .hp).toNat + textSize (toString Int32.minValue.toInt) ≤ 2 ^ 31 := by decide +kernel
  obtain ⟨s, core', hs, hg, h, -, hread⟩ := @intToString_parseInt (.usual roundTripCode) roundTripCode lowestCore 0
    Int32.minValue hlinked rfl (by decide +kernel) rfl (by decide +kernel) hroom
  obtain rfl : "-2147483648" = s := by
    have hdisplay : toString Int32.minValue.toInt = "-2147483648" := by decide +kernel
    cases hs
    exact hdisplay.symm
  have hstored := h.text.stored
  rw [← h.address] at hstored
  obtain ⟨core'', hg', hanswered⟩ := @hread core' 1 rfl (by decide +kernel) hstored
  exact ⟨hlinked, rfl, by decide +kernel, hroom, core', core'', hg, h, hg', hanswered.result⟩

end Arbor.Machine
