import Arbor.Proofs.Machine.Parsing

/-!
This module contains the chars that are used as strings. The routine that turns a char into a string stores the lowest
byte of its code, so that only ASCII characters get the bytes that they have in a text.
-/

namespace Arbor.Machine

open Assembly
open Lowering (Frame SlotKind ExprCode BinaryCode EmbeddedCode spelling spellings embeddedCallee lowerExpr)

/-! The bytes of chars -/

def lowBytes (w : Word) : List UInt8 :=
  if w.setWidth 8 = 0 then [] else [⟨w.setWidth 8⟩]

/--
The bytes that the generated code takes for a char or a string.
-/
def operandBytes : Value → List UInt8
  | .char c => lowBytes (wordOf (.char c))
  | .text s => bytes s
  | _ => []

/--
All strings, and the ASCII characters but the one with the code zero.
-/
def SpellsRight : Value → Prop
  | .char c => 0 < c.val.toNat ∧ c.val.toNat < 128
  | _ => True

inductive OperandAt (core : Core) (w : Word) : SlotKind → Value → Prop where
  | char {c : Char} : w = wordOf (.char c) → OperandAt core w .char (.char c)
  | text {s : String} : TextAt core w s → OperandAt core w .string (.text s)

section Spelling

variable {core core' : Core} {w : Word} {kind left right : SlotKind} {u v : Value} {c : Char}

theorem wordOf_char (c : Char) : wordOf (.char c) = c.val.toBitVec := by
  have hword : wordOf (.char c) = .ofNat 32 c.val.toNat := BitVec.ofInt_natCast 32 _
  have hval : c.val.toNat = c.val.toBitVec.toNat := rfl
  rw [hword, hval, BitVec.ofNat_toNat, BitVec.setWidth_eq]

theorem length_lowBytes_le (w : Word) : (lowBytes w).length ≤ 1 := by
  unfold lowBytes
  split
  · exact Nat.zero_le 1
  · exact Nat.le_refl 1

theorem bytes_toString_char (c : Char) : bytes c.toString = String.utf8EncodeChar c := by
  rw [bytes_eq_flatMap, Char.toString_eq_singleton, String.toList_singleton, List.flatMap_singleton]

theorem lowBytes_eq_iff : lowBytes (wordOf (.char c)) = String.utf8EncodeChar c ↔ SpellsRight (.char c) := by
  have hlow : ((wordOf (.char c)).setWidth 8).toNat = c.val.toNat % 256 := by
    rw [wordOf_char, BitVec.toNat_setWidth]
    rfl
  have hzero : (wordOf (.char c)).setWidth 8 = 0 ↔ c.val.toNat % 256 = 0 := by
    rw [← hlow]
    exact BitVec.toNat_inj.symm
  by_cases hascii : c.val.toNat < 128
  · unfold lowBytes SpellsRight
    rw [utf8EncodeChar_of_ascii hascii]
    by_cases hnull : c.val.toNat = 0
    · rw [if_pos (hzero.mpr (by omega))]
      simp [hnull]
    · have hne : (wordOf (.char c)).setWidth 8 ≠ 0 := fun h => by
        have := hzero.mp h
        omega
      rw [if_neg hne]
      refine ⟨fun _ => ⟨by omega, hascii⟩, fun _ => congrArg (fun b => [b]) ?_⟩
      apply UInt8.toNat_inj.mp
      rw [toNat_ofNat_of_ascii hascii]
      exact hlow.trans (by omega)
  · -- Any other character has more than one byte.
    refine ⟨fun h => ?_, fun h => absurd h.2 hascii⟩
    have hle := length_lowBytes_le (wordOf (.char c))
    have hpositive := c.utf8Size_pos
    rw [h, String.length_utf8EncodeChar] at hle
    have hsmall : c.val ≤ 127 := Char.utf8Size_eq_one_iff.mp (by omega)
    rw [UInt32.le_iff_toNat_le] at hsmall
    exact absurd (Nat.lt_succ_of_le hsmall) hascii

theorem lowByte_eq (h : SpellsRight (.char c)) : [⟨(wordOf (.char c)).setWidth 8⟩] = bytes c.toString := by
  have hlow := lowBytes_eq_iff.mpr h
  unfold lowBytes at hlow
  split at hlow
  · exact absurd hlow.symm String.utf8EncodeChar_ne_nil
  · rw [hlow, bytes_toString_char]

theorem OperandAt.operandBytes_eq_iff (h : OperandAt core w kind v) :
    operandBytes v = bytes v.display ↔ SpellsRight v := by
  cases h with
  | char => rw [operandBytes, Value.display, bytes_toString_char, lowBytes_eq_iff]
  | text => exact iff_of_true rfl trivial

theorem OperandAt.length_operandBytes_le (h : OperandAt core w kind v) :
    (operandBytes v).length ≤ (bytes v.display).length := by
  cases h with
  | @char c =>
    have hpositive : 0 < (String.utf8EncodeChar c).length := List.length_pos_of_ne_nil String.utf8EncodeChar_ne_nil
    have hle := length_lowBytes_le (wordOf (.char c))
    rw [operandBytes, Value.display, bytes_toString_char]
    omega
  | text => exact Nat.le_refl _

/--
Two operands are spelled one after the other as their texts are if and only if both of them are spelled right.
-/
theorem OperandAt.append_operandBytes_eq_iff {w' : Word} (hv : OperandAt core w left v)
    (hu : OperandAt core w' right u) :
    operandBytes v ++ operandBytes u = bytes (v.display ++ u.display) ↔ SpellsRight v ∧ SpellsRight u := by
  rw [← hv.operandBytes_eq_iff, ← hu.operandBytes_eq_iff, bytes_append]
  refine ⟨fun h => ?_, fun h => by rw [h.1, h.2]⟩
  have hlength := congrArg List.length h
  have hle := hv.length_operandBytes_le
  have hle' := hu.length_operandBytes_le
  rw [List.length_append, List.length_append] at hlength
  exact List.append_inj h (by omega)

end Spelling

/-! Spelled operands -/

section Operands

variable {L : Layout} {lines : List Line} {start : Hart} {core core' core'' : Core} {k k' m n : Nat} {a w : Word}
  {rd : Register} {xs ys : List UInt8} {kind left right : SlotKind} {u v : Value}

theorem wrote_charToString (hlinked : Linked L lines) (hcall : lines[m]? = some (.jal Routine.charToString.label))
    (hlength : m + 1 < lines.length) (hg : Reaches L lines start ⟨core, m⟩) (haligned : (core.get .hp).toNat % 4 = 0)
    (hroom : (core.get .hp).toNat + 4 < 2 ^ 32) :
    ∃ core', Reaches L lines start ⟨core', m + 1⟩ ∧ Wrote core core' (lowBytes (core.get .a0)) := by
  apply hlinked.returns hcall hlength hg
  intro i j hc hret hg
  let core₀ := core.set .ra (L.code (m + 1))
  let b := (core.get .a0).setWidth 8
  let core₁ := ((core₀.set .t0 (core.get .hp)).storeByte (core.get .hp) b).storeByte (core.get .hp + 1) 0
  let core₂ := (core₁.set .hp (core.get .hp + 4)).set .a0 (core.get .hp)
  have hrun : runLines L core₀ Routine.charToStringBody = some core₂ := by
    simp [Routine.charToStringBody, runLine, effect, immediateOp, moveOp, Core.get_set_of_ne, Core.get_storeByte, core₀,
      core₁, core₂, b]
    rfl
  have hhp : core₂.get .hp = core.get .hp + 4 := rfl
  have hpointer : (core₂.get .hp).toNat = (core.get .hp).toNat + 4 := by
    rw [hhp]
    bv_omega
  have hfirst : core₂.memory (core.get .hp) = b := by
    have hne : core.get .hp ≠ core.get .hp + 1 := by bv_omega
    exact (if_neg hne).trans (if_pos rfl)
  have hother (a : Word) (h₀ : a ≠ core.get .hp) (h₁ : a ≠ core.get .hp + 1) : core₂.memory a = core.memory a :=
    (if_neg h₁).trans (if_neg h₀)
  have hsize : 4 * ((lowBytes (core.get .a0)).length / 4 + 1) = 4 := by
    have hle := length_lowBytes_le (core.get .a0)
    omega
  refine ⟨core₂, j, hg.straight hc hrun, hret, rfl, ⟨?_, ?_, ?_⟩, ?_, ?_, ?_, rfl, ?_, ?_⟩
  · unfold lowBytes
    split
    · next hzero => exact ⟨hfirst.trans hzero, trivial⟩
    · exact ⟨hfirst, if_pos rfl, trivial⟩
  · unfold lowBytes
    split
    · exact List.not_mem_nil
    · next hne => exact fun hmem => hne (congrArg UInt8.toBitVec (List.mem_singleton.mp hmem)).symm
  · have hle := length_lowBytes_le (core.get .a0)
    rw [hpointer]
    omega
  · intro a ha
    apply hother <;> bv_omega
  · rw [hpointer, hsize]
  · rw [hpointer]
    omega
  · intro a ha
    apply hother <;> bv_omega
  · intro rd hrd
    have hscratch (rd' : Register) (hrd' : rd' ∈ scratch) : rd ≠ rd' := by
      rintro rfl
      exact hrd (by simp [hrd'])
    simp only [List.mem_cons, not_or] at hrd
    rw [Core.get_set_of_ne (hscratch .a0 (by decide)), Core.get_set_of_ne hrd.1, Core.get_storeByte,
      Core.get_storeByte, Core.get_set_of_ne (hscratch .t0 (by decide)), Core.get_set_of_ne hrd.2.1]

theorem EndedAt.of_below (h : EndedAt core a xs)
    (hbelow : ∀ x : Word, x.toNat < (core.get .hp).toNat → core'.memory x = core.memory x)
    (hpointer : (core.get .hp).toNat ≤ (core'.get .hp).toNat) : EndedAt core' a xs := by
  have hbound := h.below
  refine ⟨h.stored.congr fun i hi => hbelow _ ?_, h.zero_notMem, by omega⟩
  rw [List.length_append, List.length_singleton] at hi
  bv_omega

theorem Reaches.pop (hg : Reaches L lines start ⟨core, k⟩) (hrd : rd ≠ .sp) (hc : CodeAt lines k (Assembly.pop rd) k') :
    Reaches L lines start ⟨(core.set rd (core.loadWord (core.get .sp))).set .sp (core.get .sp + 4), k'⟩ := by
  apply hg.straight hc
  simp [Assembly.pop, runLine, effect, immediateOp, wordBytes, Core.get_set_of_ne (Ne.symm hrd)]

structure Spelled (core core' : Core) (a : Word) : Prop where
  sp : core'.get .sp = core.get .sp
  pointer : (core.get .hp).toNat ≤ (core'.get .hp).toNat ∧ (core'.get .hp).toNat ≤ (core.get .hp).toNat + 4
  aligned : (core'.get .hp).toNat % 4 = 0
  memory : ∀ x : Word, x.toNat < (core.get .hp).toNat ∨ (core'.get .hp).toNat ≤ x.toNat ∧ 4 ≤ x - a →
    core'.memory x = core.memory x

theorem spelled_of_operand (hlinked : Linked L lines)
    (hv : OperandAt core (core.loadWord (core.get .sp + .ofNat 32 (4 * n))) kind v)
    (hc : CodeAt lines k (if kind = .char then spelling n else []) k') (hn : n ≤ 1)
    (haligned : (core.get .hp).toNat % 4 = 0) (hroom : (core.get .hp).toNat + 4 ≤ (core.get .sp).toNat)
    (hstack : (core.get .sp).toNat + 8 ≤ 2 ^ 32) (hg : Reaches L lines start ⟨core, k⟩) :
    ∃ core', Reaches L lines start ⟨core', k'⟩ ∧ Spelled core core' (core.get .sp + .ofNat 32 (4 * n)) ∧
      EndedAt core' (core'.loadWord (core.get .sp + .ofNat 32 (4 * n))) (operandBytes v) := by
  cases hv with
  | @text s hs =>
    cases hc
    exact ⟨core, hg, ⟨rfl, ⟨Nat.le_refl _, Nat.le_add_right _ _⟩, haligned, fun _ _ => rfl⟩, textAt_iff.mp hs⟩
  | @char c hw =>
    let a := core.get .sp + .ofNat 32 (4 * n)
    have haddress (core : Core) : core.get .sp + .ofInt 32 (n * wordBytes) = core.get .sp + .ofNat 32 (4 * n) := by
      have hoffset : (n : Int) * wordBytes = (4 * n : Nat) := by
        unfold wordBytes
        omega
      rw [hoffset, BitVec.ofInt_natCast]
    have ha : a.toNat = (core.get .sp).toNat + 4 * n := by
      change (core.get .sp + .ofNat 32 (4 * n)).toNat = _
      bv_omega
    have hc : CodeAt lines k (spelling n) k' := hc
    simp only [spelling, codeAt_instruction, codeAt_nil] at hc
    obtain ⟨hload, hcall, hstore, rfl⟩ := hc
    have hg₁ : Reaches L lines start ⟨core.set .a0 (core.loadWord a), k + 1⟩ := by
      apply hg.step (step_instruction hload _)
      rw [effect, haddress]
    obtain ⟨core₁, hg₁, h₁⟩ := wrote_charToString hlinked hcall (List.getElem?_eq_some_iff.mp hstore).1 hg₁ haligned
      (Nat.lt_of_le_of_lt hroom (core.get .sp).isLt)
    have hsp : core₁.get .sp = core.get .sp := h₁.registers .sp (by decide)
    have hpointer : (core₁.get .hp).toNat = (core.get .hp).toNat + 4 := by
      have hle := length_lowBytes_le (core.loadWord a)
      have hpointer := h₁.pointer
      rw [Core.get_set (by decide), Core.get_set_of_ne (by decide)] at hpointer
      omega
    -- The address of the new string replaces the char in its slot.
    let core₂ := core₁.storeWord a (core.get .hp)
    have hg₂ : Reaches L lines start ⟨core₂, k + 1 + 1 + 1⟩ := by
      apply hg₁.step (step_instruction hstore _)
      rw [effect, haddress, hsp, h₁.address]
      rfl
    have hhp₂ : core₂.get .hp = core₁.get .hp := Core.get_storeWord
    have hmemory (x : Word) (hx : 4 ≤ x - a) : core₂.memory x = core₁.memory x := Core.memory_storeWord hx
    refine ⟨core₂, hg₂, ⟨Core.get_storeWord.trans hsp, ?_, ?_, fun x hx => ?_⟩, ?_⟩
    · rw [hhp₂]
      omega
    · rw [hhp₂]
      exact h₁.aligned
    · rw [hhp₂] at hx
      rcases hx with hx | ⟨hx, hx'⟩
      · rw [hmemory x (by bv_omega)]
        exact h₁.below x hx
      · rw [hmemory x hx']
        exact h₁.above x hx
    · rw [Core.loadWord_storeWord, operandBytes, ← hw]
      have hbytes := h₁.bytes
      rw [Core.get_set (by decide), Core.get_set_of_ne (by decide)] at hbytes
      exact hbytes.of_below (fun x hx => hmemory x (by bv_omega)) (Nat.le_of_eq (congrArg BitVec.toNat hhp₂.symm))

theorem OperandAt.of_below (h : OperandAt core w kind v)
    (hbelow : ∀ x : Word, x.toNat < (core.get .hp).toNat → core'.memory x = core.memory x)
    (hpointer : (core.get .hp).toNat ≤ (core'.get .hp).toNat) : OperandAt core' w kind v := by
  cases h with
  | char hw => exact .char hw
  | text hs => exact .text (textAt_iff.mpr ((textAt_iff.mp hs).of_below hbelow hpointer))

structure BothSpelled (core core' : Core) (xs ys : List UInt8) : Prop where
  left : EndedAt core' (core'.loadWord (core.get .sp + 4)) xs
  right : EndedAt core' (core'.loadWord (core.get .sp)) ys
  sp : core'.get .sp = core.get .sp
  pointer : (core.get .hp).toNat ≤ (core'.get .hp).toNat ∧ (core'.get .hp).toNat ≤ (core.get .hp).toNat + 8
  aligned : (core'.get .hp).toNat % 4 = 0
  memory : ∀ x : Word, x.toNat < (core.get .hp).toNat ∨ (core.get .sp).toNat + 8 ≤ x.toNat →
    core'.memory x = core.memory x

theorem spelled_of_operands (hlinked : Linked L lines) (hv : OperandAt core (core.loadWord (core.get .sp + 4)) left v)
    (hu : OperandAt core (core.loadWord (core.get .sp)) right u) (hc : CodeAt lines k (spellings left right) k')
    (haligned : (core.get .hp).toNat % 4 = 0) (hroom : (core.get .hp).toNat + 8 ≤ (core.get .sp).toNat)
    (hstack : (core.get .sp).toNat + 8 ≤ 2 ^ 32) (hg : Reaches L lines start ⟨core, k⟩) :
    ∃ core', Reaches L lines start ⟨core', k'⟩ ∧ BothSpelled core core' (operandBytes v) (operandBytes u) := by
  obtain ⟨j, hleft, hright⟩ := codeAt_append.mp hc
  obtain ⟨core₁, hg₁, h₁, hxs⟩ := spelled_of_operand (n := 1) hlinked hv hleft (Nat.le_refl 1) haligned (by omega)
    hstack hg
  have hzero (core : Core) : core.get .sp + .ofNat 32 (4 * 0) = core.get .sp := BitVec.add_zero _
  have hfour (core : Core) : core.get .sp + .ofNat 32 (4 * 1) = core.get .sp + 4 := rfl
  have hpointer₁ := h₁.pointer
  have hmemory₁ := h₁.memory
  rw [hfour] at hxs hmemory₁
  have hword : core₁.loadWord (core.get .sp) = core.loadWord (core.get .sp) := by
    apply Core.loadWord_of_bytes
    intro x hx
    apply hmemory₁
    bv_omega
  have hu₁ : OperandAt core₁ (core₁.loadWord (core₁.get .sp + .ofNat 32 (4 * 0))) right u := by
    rw [hzero, h₁.sp, hword]
    exact hu.of_below (fun x hx => hmemory₁ x (.inl hx)) hpointer₁.1
  obtain ⟨core₂, hg₂, h₂, hys⟩ := spelled_of_operand hlinked hu₁ hright (Nat.zero_le 1) h₁.aligned
    (by rw [h₁.sp]; omega) (by rwa [h₁.sp]) hg₁
  have hpointer₂ := h₂.pointer
  have hmemory₂ := h₂.memory
  rw [hzero, h₁.sp] at hys hmemory₂
  have hword₂ : core₂.loadWord (core.get .sp + 4) = core₁.loadWord (core.get .sp + 4) := by
    apply Core.loadWord_of_bytes
    intro x hx
    apply hmemory₂
    bv_omega
  refine ⟨core₂, hg₂, ?_, hys, h₂.sp.trans h₁.sp, by omega, h₂.aligned, fun x hx => ?_⟩
  · rw [hword₂]
    exact hxs.of_below (fun x hx => hmemory₂ x (.inl hx)) hpointer₂.1
  · rw [hmemory₂ x (by bv_omega), hmemory₁ x (by bv_omega)]

/-! Operators -/

structure Replaced (n : Nat) (core core' : Core) : Prop where
  sp : core'.get .sp = core.get .sp + .ofNat 32 (4 * n) - 4
  pointer : (core.get .hp).toNat ≤ (core'.get .hp).toNat
  aligned : (core'.get .hp).toNat % 4 = 0
  memory : ∀ x : Word, x.toNat < (core.get .hp).toNat ∨ (core.get .sp).toNat + 4 * n ≤ x.toNat →
    core'.memory x = core.memory x

structure PushedBytes (n : Nat) (core core' : Core) (xs : List UInt8) : Prop extends Replaced n core core' where
  bytes : EndedAt core' (core'.loadWord (core'.get .sp)) xs
  fresh : (core.get .hp).toNat ≤ (core'.loadWord (core'.get .sp)).toNat

theorem replaced_of_push (hn : 0 < n) (hstack : (core.get .sp).toNat + 4 * n ≤ 2 ^ 32)
    (hsp : core'.get .sp = core.get .sp + .ofNat 32 (4 * n))
    (hpointer : (core.get .hp).toNat ≤ (core'.get .hp).toNat ∧ (core'.get .hp).toNat ≤ (core.get .sp).toNat)
    (haligned : (core'.get .hp).toNat % 4 = 0)
    (hmemory : ∀ x : Word, x.toNat < (core.get .hp).toNat ∨ (core.get .sp).toNat + 4 * n ≤ x.toNat →
      core'.memory x = core.memory x)
    (hc : CodeAt lines k (push .a0) k') (hg : Reaches L lines start ⟨core', k⟩) :
    ∃ core'', Reaches L lines start ⟨core'', k'⟩ ∧ Replaced n core core'' ∧
      core''.loadWord (core''.get .sp) = core'.get .a0 ∧ core''.get .hp = core'.get .hp ∧
      ∀ x : Word, x.toNat < (core'.get .hp).toNat → core''.memory x = core'.memory x := by
  have hsp' : (core'.get .sp - 4).toNat = (core.get .sp).toNat + 4 * n - 4 := by
    rw [hsp]
    bv_omega
  have hother (x : Word) (hx : x.toNat < (core'.get .hp).toNat ∨ (core.get .sp).toNat + 4 * n ≤ x.toNat) :
      ((core'.set .sp (core'.get .sp - 4)).storeWord (core'.get .sp - 4) (core'.get .a0)).memory x = core'.memory x :=
    Core.memory_storeWord (by bv_omega)
  refine ⟨_, hg.push (by decide) hc, ⟨?_, ?_, ?_, fun x hx => ?_⟩, ?_, ?_, fun x hx => hother x (.inl hx)⟩
  · rw [Core.get_storeWord, Core.get_set (by decide), hsp]
  · rw [Core.get_storeWord, Core.get_set_of_ne (by decide)]
    exact hpointer.1
  · rw [Core.get_storeWord, Core.get_set_of_ne (by decide)]
    exact haligned
  · rw [hother x (by omega), hmemory x hx]
  · rw [Core.get_storeWord, Core.get_set (by decide), Core.loadWord_storeWord]
  · rw [Core.get_storeWord, Core.get_set_of_ne (by decide)]

theorem pushedBytes_of_wrote (hn : 0 < n) (hstack : (core.get .sp).toNat + 4 * n ≤ 2 ^ 32)
    (hsp : core'.get .sp = core.get .sp + .ofNat 32 (4 * n))
    (hpointer : (core.get .hp).toNat ≤ (core'.get .hp).toNat)
    (hmemory : ∀ x : Word, x.toNat < (core.get .hp).toNat ∨ (core.get .sp).toNat + 4 * n ≤ x.toNat →
      core'.memory x = core.memory x)
    (h : Wrote core' core'' xs) (hroom : (core''.get .hp).toNat ≤ (core.get .sp).toNat)
    (hc : CodeAt lines k (push .a0) k') (hg : Reaches L lines start ⟨core'', k⟩) :
    ∃ core₁, Reaches L lines start ⟨core₁, k'⟩ ∧ PushedBytes n core core₁ xs := by
  have hgrown := h.pointer
  have hmemory₁ (x : Word) (hx : x.toNat < (core.get .hp).toNat ∨ (core.get .sp).toNat + 4 * n ≤ x.toNat) :
      core''.memory x = core.memory x := by
    rw [← hmemory x hx]
    rcases hx with hx | hx
    · exact h.below x (by omega)
    · exact h.above x (by omega)
  obtain ⟨core₁, hg₁, h₁, hword, hhp, hbelow⟩ := replaced_of_push hn hstack ((h.registers .sp (by decide)).trans hsp)
    ⟨by omega, hroom⟩ h.aligned hmemory₁ hc hg
  refine ⟨core₁, hg₁, h₁, ?_, ?_⟩
  · rw [hword, h.address]
    exact h.bytes.of_below hbelow (Nat.le_of_eq (congrArg BitVec.toNat hhp.symm))
  · rw [hword, h.address]
    exact hpointer

theorem pushed_of_toText {c : Char} (hlinked : Linked L lines)
    (hc : CodeAt lines k (pop .a0 ++ [.jal Routine.charToString.label] ++ push .a0) k')
    (hw : core.loadWord (core.get .sp) = wordOf (.char c)) (haligned : (core.get .hp).toNat % 4 = 0)
    (hroom : (core.get .hp).toNat + 4 ≤ (core.get .sp).toNat) (hstack : (core.get .sp).toNat + 4 ≤ 2 ^ 32)
    (hg : Reaches L lines start ⟨core, k⟩) :
    ∃ core', Reaches L lines start ⟨core', k'⟩ ∧ PushedBytes 1 core core' (operandBytes (.char c)) := by
  obtain ⟨j, hc, hpush⟩ := codeAt_append.mp hc
  obtain ⟨i, hpop, hcall⟩ := codeAt_append.mp hc
  simp only [codeAt_instruction, codeAt_nil] at hcall
  obtain ⟨hcall, rfl⟩ := hcall
  have hnext : i + 1 < lines.length := (List.getElem?_eq_some_iff.mp (codeAt_instruction.mp hpush).1).1
  let core₁ := (core.set .a0 (core.loadWord (core.get .sp))).set .sp (core.get .sp + 4)
  have hg₁ : Reaches L lines start ⟨core₁, i⟩ := hg.pop (by decide) hpop
  have hhp : core₁.get .hp = core.get .hp := rfl
  have ha₀ : core₁.get .a0 = wordOf (.char c) := hw
  obtain ⟨core₂, hg₂, h₂⟩ := wrote_charToString hlinked hcall hnext hg₁ haligned
    (Nat.lt_of_le_of_lt hroom (core.get .sp).isLt)
  have hle := length_lowBytes_le (core₁.get .a0)
  have hpointer := h₂.pointer
  rw [ha₀] at h₂
  exact pushedBytes_of_wrote Nat.one_pos hstack (show core₁.get .sp = _ from rfl) (Nat.le_of_eq rfl) (fun _ _ => rfl) h₂
    (by rw [hpointer, hhp]; omega) hpush hg₂

structure PoppedBoth (core core' : Core) (xs ys : List UInt8) : Prop where
  left : EndedAt core' (core'.get .a0) xs
  right : EndedAt core' (core'.get .a1) ys
  sp : core'.get .sp = core.get .sp + .ofNat 32 (4 * 2)
  pointer : (core.get .hp).toNat ≤ (core'.get .hp).toNat ∧ (core'.get .hp).toNat ≤ (core.get .hp).toNat + 8
  aligned : (core'.get .hp).toNat % 4 = 0
  memory : ∀ x : Word, x.toNat < (core.get .hp).toNat ∨ (core.get .sp).toNat + 4 * 2 ≤ x.toNat →
    core'.memory x = core.memory x

theorem poppedBoth_of_operands (hlinked : Linked L lines)
    (hv : OperandAt core (core.loadWord (core.get .sp + 4)) left v)
    (hu : OperandAt core (core.loadWord (core.get .sp)) right u)
    (hc : CodeAt lines k (spellings left right ++ pop .a1 ++ pop .a0) k') (haligned : (core.get .hp).toNat % 4 = 0)
    (hroom : (core.get .hp).toNat + 8 ≤ (core.get .sp).toNat) (hstack : (core.get .sp).toNat + 8 ≤ 2 ^ 32)
    (hg : Reaches L lines start ⟨core, k⟩) :
    ∃ core', Reaches L lines start ⟨core', k'⟩ ∧ PoppedBoth core core' (operandBytes v) (operandBytes u) := by
  obtain ⟨i, hc, hsecond⟩ := codeAt_append.mp hc
  obtain ⟨j, hspell, hfirst⟩ := codeAt_append.mp hc
  obtain ⟨core₁, hg₁, h₁⟩ := spelled_of_operands hlinked hv hu hspell haligned hroom hstack hg
  have hg₂ := (hg₁.pop (by decide) hfirst).pop (by decide) hsecond
  let core₂ := (core₁.set .a1 (core₁.loadWord (core₁.get .sp))).set .sp (core₁.get .sp + 4)
  let core₃ := (core₂.set .a0 (core₂.loadWord (core₂.get .sp))).set .sp (core₂.get .sp + 4)
  have ha₀ : core₃.get .a0 = core₁.loadWord (core₁.get .sp + 4) := rfl
  have ha₁ : core₃.get .a1 = core₁.loadWord (core₁.get .sp) := rfl
  have hsp : core₃.get .sp = core₁.get .sp + 4 + 4 := rfl
  have hended {a : Word} {xs : List UInt8} (h : EndedAt core₁ a xs) : EndedAt core₃ a xs :=
    ⟨h.stored, h.zero_notMem, h.below⟩
  refine ⟨core₃, hg₂, ?_, ?_, ?_, h₁.pointer, h₁.aligned, h₁.memory⟩
  · rw [ha₀, h₁.sp]
    exact hended h₁.left
  · rw [ha₁, h₁.sp]
    exact hended h₁.right
  · rw [hsp, h₁.sp]
    bv_omega

theorem pushed_of_concatenation (hlinked : Linked L lines)
    (hc : CodeAt lines k
      (spellings left right ++ pop .a1 ++ pop .a0 ++ [.jal Routine.concatString.label] ++ push .a0) k')
    (hv : OperandAt core (core.loadWord (core.get .sp + 4)) left v)
    (hu : OperandAt core (core.loadWord (core.get .sp)) right u) (haligned : (core.get .hp).toNat % 4 = 0)
    (hroom : (core.get .hp).toNat + 8 + 4 * ((operandBytes v ++ operandBytes u).length / 4 + 1) ≤ (core.get .sp).toNat)
    (hstack : (core.get .sp).toNat + 8 ≤ 2 ^ 32) (hg : Reaches L lines start ⟨core, k⟩) :
    ∃ core', Reaches L lines start ⟨core', k'⟩ ∧ PushedBytes 2 core core' (operandBytes v ++ operandBytes u) := by
  obtain ⟨j, hc, hpush⟩ := codeAt_append.mp hc
  obtain ⟨i, hload, hcall⟩ := codeAt_append.mp hc
  simp only [codeAt_instruction, codeAt_nil] at hcall
  obtain ⟨hcall, rfl⟩ := hcall
  have hnext : i + 1 < lines.length := (List.getElem?_eq_some_iff.mp (codeAt_instruction.mp hpush).1).1
  obtain ⟨core₁, hg₁, h₁⟩ := poppedBoth_of_operands hlinked hv hu hload haligned (by omega) hstack hg
  have hpointer₁ := h₁.pointer
  obtain ⟨core₂, hg₂, h₂⟩ := wrote_concatString hlinked hcall hnext hg₁ h₁.left h₁.right h₁.aligned (by omega)
  have hpointer₂ := h₂.pointer
  exact pushedBytes_of_wrote (by decide) hstack h₁.sp hpointer₁.1 h₁.memory h₂ (by omega) hpush hg₂

theorem pushed_of_comparison (hlinked : Linked L lines)
    (hc : CodeAt lines k (spellings left right ++ pop .a1 ++ pop .a0 ++ [.jal Routine.strEquals.label] ++ push .a0) k')
    (hv : OperandAt core (core.loadWord (core.get .sp + 4)) left v)
    (hu : OperandAt core (core.loadWord (core.get .sp)) right u) (haligned : (core.get .hp).toNat % 4 = 0)
    (hroom : (core.get .hp).toNat + 8 ≤ (core.get .sp).toNat) (hstack : (core.get .sp).toNat + 8 ≤ 2 ^ 32)
    (hg : Reaches L lines start ⟨core, k⟩) :
    ∃ core', Reaches L lines start ⟨core', k'⟩ ∧ Replaced 2 core core' ∧
      core'.loadWord (core'.get .sp) = wordOf (.bool (operandBytes v = operandBytes u)) := by
  obtain ⟨j, hc, hpush⟩ := codeAt_append.mp hc
  obtain ⟨i, hload, hcall⟩ := codeAt_append.mp hc
  simp only [codeAt_instruction, codeAt_nil] at hcall
  obtain ⟨hcall, rfl⟩ := hcall
  have hnext : i + 1 < lines.length := (List.getElem?_eq_some_iff.mp (codeAt_instruction.mp hpush).1).1
  obtain ⟨core₁, hg₁, h₁⟩ := poppedBoth_of_operands hlinked hv hu hload haligned hroom hstack hg
  have hpointer₁ := h₁.pointer
  obtain ⟨core₂, hg₂, h₂, hresult⟩ := onlySets_strEquals hlinked hcall hnext hg₁ h₁.left h₁.right
  have hhp : core₂.get .hp = core₁.get .hp := h₂.registers .hp (by decide)
  obtain ⟨core₃, hg₃, h₃, hword, -⟩ := replaced_of_push (by decide) hstack ((h₂.registers .sp (by decide)).trans h₁.sp)
    (by rw [hhp]; omega) (hhp ▸ h₁.aligned) (fun x hx => (congrFun h₂.memory x).trans (h₁.memory x hx)) hpush hg₂
  refine ⟨core₃, hg₃, h₃, ?_⟩
  rw [hword, hresult, wordOf_bool]
  simp

/--
What the generated code makes of chars that are used as strings, in `toString`, in `+` and in `==`, next to what the
evaluator makes of them. The code spells each char with the lowest byte of its code. So the bytes are those of the
evaluator's text if and only if all chars are ASCII characters, without the one with the code zero.
-/
structure SpellsChars (L : Layout) (lines : List Line) : Prop where
  spelled : ∀ {span : Span} {callee arg : Expr} {g g' : Lowering.State} {kind : SlotKind},
    embeddedCallee callee = .ok .toText → lowerExpr (.call span callee [arg]) g = .ok kind g' →
    ∃ argKind len n c₁ c, ExprCode g.frame g.nextLabel none arg argKind len c₁ n ∧
      g'.assembler = g.assembler.write (c₁ ++ c) ∧
      ∀ {core : Core} {k k' : Nat} {x : Char}, argKind = .char → CodeAt lines k c k' →
        core.loadWord (core.get .sp) = wordOf (.char x) → (core.get .hp).toNat % 4 = 0 →
        (core.get .hp).toNat + 4 ≤ (core.get .sp).toNat → (core.get .sp).toNat + 4 ≤ 2 ^ 32 →
        ∃ s core', Embedded.apply .toText [.char x] = .ok (.text s) ∧ Reaches L lines ⟨core, k⟩ ⟨core', k'⟩ ∧
          PushedBytes 1 core core' (operandBytes (.char x)) ∧
          (operandBytes (.char x) = bytes s ↔ SpellsRight (.char x))
  appended : ∀ {span : Span} {l r : Expr} {g g' : Lowering.State} {kind : SlotKind},
    lowerExpr (.binary span .add l r) g = .ok kind g' →
    ∃ left right len₁ len₂ n₁ n₂ c₁ c₂ c, ExprCode g.frame g.nextLabel none l left len₁ c₁ n₁ ∧
      ExprCode (g.frame.push left len₁) n₁ none r right len₂ c₂ n₂ ∧
      g'.assembler = g.assembler.write (c₁ ++ c₂ ++ c) ∧
      ∀ {core : Core} {k k' : Nat} {v u : Value}, CodeAt lines k c k' →
        OperandAt core (core.loadWord (core.get .sp + 4)) left v →
        OperandAt core (core.loadWord (core.get .sp)) right u → (core.get .hp).toNat % 4 = 0 →
        (core.get .hp).toNat + 8 + 4 * ((operandBytes v ++ operandBytes u).length / 4 + 1) ≤ (core.get .sp).toNat →
        (core.get .sp).toNat + 8 ≤ 2 ^ 32 →
        ∃ s core', Value.binary .add v u = .ok (.text s) ∧ Reaches L lines ⟨core, k⟩ ⟨core', k'⟩ ∧
          PushedBytes 2 core core' (operandBytes v ++ operandBytes u) ∧
          (operandBytes v ++ operandBytes u = bytes s ↔ SpellsRight v ∧ SpellsRight u)
  compared : ∀ {span : Span} {l r : Expr} {g g' : Lowering.State} {kind : SlotKind},
    lowerExpr (.binary span .eq l r) g = .ok kind g' →
    ∃ left right len₁ len₂ n₁ n₂ c₁ c₂ c, ExprCode g.frame g.nextLabel none l left len₁ c₁ n₁ ∧
      ExprCode (g.frame.push left len₁) n₁ none r right len₂ c₂ n₂ ∧
      g'.assembler = g.assembler.write (c₁ ++ c₂ ++ c) ∧
      ∀ {core : Core} {k k' : Nat} {v u : Value}, ¬(left = .char ∧ right = .char) → CodeAt lines k c k' →
        OperandAt core (core.loadWord (core.get .sp + 4)) left v →
        OperandAt core (core.loadWord (core.get .sp)) right u → (core.get .hp).toNat % 4 = 0 →
        (core.get .hp).toNat + 8 ≤ (core.get .sp).toNat → (core.get .sp).toNat + 8 ≤ 2 ^ 32 →
        ∃ b core', Value.binary .eq v u = .ok (.bool b) ∧ Reaches L lines ⟨core, k⟩ ⟨core', k'⟩ ∧
          Replaced 2 core core' ∧ core'.loadWord (core'.get .sp) = wordOf (.bool (operandBytes v = operandBytes u)) ∧
          (SpellsRight v ∧ SpellsRight u → b = decide (operandBytes v = operandBytes u))

theorem charTexts_of_lowerExpr (hlinked : Linked L lines) : SpellsChars L lines := by
  refine ⟨?_, ?_, ?_⟩
  · intro span callee arg g g' kind hcallee haccepted
    obtain ⟨len, c, n, hcode, rfl⟩ := Lowering.writes_lowerExpr _ g g' kind haccepted
    cases hcode with
    | call hcallee' harg hembedded =>
      cases hcallee.symm.trans hcallee'
      refine ⟨_, _, _, _, _, harg, Lowering.State.assembler_write, ?_⟩
      rintro core k k' x rfl hc hw haligned hroom hstack
      cases hembedded with
      | spelled hroutine =>
        cases hroutine
        obtain ⟨core', hg, h⟩ := pushed_of_toText hlinked hc hw haligned hroom hstack (.refl _)
        exact ⟨_, core', rfl, hg, h, (@OperandAt.char core _ _ hw).operandBytes_eq_iff⟩
  · intro span l r g g' kind haccepted
    obtain ⟨len, c, n, hcode, rfl⟩ := Lowering.writes_lowerExpr _ g g' kind haccepted
    cases hcode with
    | logical hcls => cases hcls
    | binary _ hl hr hbinary =>
      refine ⟨_, _, _, _, _, _, _, _, _, hl, hr, Lowering.State.assembler_write, ?_⟩
      intro core k k' v u hc hv hu haligned hroom hstack
      have hvalue : Value.binary .add v u = .ok (.text (v.display ++ u.display)) := by
        cases hv <;> cases hu <;> rfl
      cases hbinary with
      | concatenation =>
        obtain ⟨core', hg, h⟩ := pushed_of_concatenation hlinked hc hv hu haligned hroom hstack (.refl _)
        exact ⟨_, core', hvalue, hg, h, hv.append_operandBytes_eq_iff hu⟩
      | ints => cases hv
      | floats _ hleft => cases hv <;> cases hleft
      | words hop => cases hop
      | comparedFloats hop => rcases hop with hop | hop <;> cases hop
      | texts hop => cases hop
  · intro span l r g g' kind haccepted
    obtain ⟨len, c, n, hcode, rfl⟩ := Lowering.writes_lowerExpr _ g g' kind haccepted
    cases hcode with
    | logical hcls => cases hcls
    | binary _ hl hr hbinary =>
      refine ⟨_, _, _, _, _, _, _, _, _, hl, hr, Lowering.State.assembler_write, ?_⟩
      intro core k k' v u hkinds hc hv hu haligned hroom hstack
      have hvalue : Value.binary .eq v u = .ok (.bool (v.display == u.display)) := by
        cases hv <;> cases hu
        · exact absurd ⟨rfl, rfl⟩ hkinds
        all_goals rfl
      cases hbinary with
      | texts =>
        rw [if_neg (by decide), List.append_nil] at hc
        obtain ⟨core', hg, h, hword⟩ := pushed_of_comparison hlinked hc hv hu haligned hroom hstack (.refl _)
        refine ⟨_, core', hvalue, hg, h, hword, fun ⟨hright, hright'⟩ => ?_⟩
        rw [hv.operandBytes_eq_iff.mpr hright, hu.operandBytes_eq_iff.mpr hright']
        simp only [bytes_inj]
        rfl
      | ints hop => cases hop
      | floats hop => cases hop
      | words hop => cases hv <;> cases hu <;> first | exact absurd ⟨rfl, rfl⟩ hkinds | cases hop
      | comparedFloats _ hleft => cases hv <;> cases hleft

end Operands

/-! An ASCII character and another one -/

def loneCode (e : Expr) : List Line :=
  match lowerExpr e (.start true) with
  | .ok _ g => g.assembler.lines.toList
  | .error .. => []

def loneLines (e : Expr) (rs : List Routine) : List Line :=
  loneCode e ++ [.j (.named "end")] ++ rs.flatMap Routine.lines

def emptyCore : Core where
  registers r :=
    match r with
    | .hp => 0x10040000
    | .sp => 0x7fffeffc
    | _ => 0
  memory := usualMemory
  output := []

def prefixedText : Expr :=
  .binary .unplaced .add (.literal .unplaced (.char 'n')) (.literal .unplaced (.string "o"))

def prefixedLines : List Line :=
  loneLines prefixedText [.charToString, .concatString]

theorem charTexts_of_lowerExpr_prefixed : Linked (.usual prefixedLines) prefixedLines ∧
    Value.binary .add (.char 'n') (.text "o") = .ok (.text "no") ∧
    ∃ core', Reaches (.usual prefixedLines) prefixedLines ⟨emptyCore, 0⟩ ⟨core', (loneCode prefixedText).length⟩ ∧
      EndedAt core' (core'.loadWord (core'.get .sp)) (bytes "no") := by
  have hlinked : Linked (.usual prefixedLines) prefixedLines :=
    linked_usual_routines (by decide +kernel) (by decide +kernel) (by decide +kernel)
  have hlowered : (match lowerExpr prefixedText (.start true) with | .ok .. => true | .error .. => false) = true := by
    decide +kernel
  have hoperands : (runLines (.usual prefixedLines) emptyCore
      ((.li .t0 (charCode 'n') :: push .t0) ++ Lowering.stringCode "o")).map (fun core => decide
        (core.loadWord (core.get .sp + 4) = wordOf (.char 'n') ∧
          BytesAt core.memory (core.loadWord (core.get .sp)) (bytes "o" ++ [0]) ∧
          (core.loadWord (core.get .sp)).toNat + (bytes "o").length < (core.get .hp).toNat ∧
          (core.get .hp).toNat = 0x10040004 ∧ (core.get .sp).toNat = 0x7fffeff4)) = some true := by
    decide +kernel
  obtain ⟨core₁, hcore₁, hchecked⟩ := Option.map_eq_some_iff.mp hoperands
  obtain ⟨hchar, hstored, hbelow, hhp, hsp⟩ := of_decide_eq_true hchecked
  cases haccepted : lowerExpr prefixedText (.start true) with
  | error => simp [haccepted] at hlowered
  | ok kind g =>
    obtain ⟨left, right, len₁, len₂, n₁, n₂, c₁, c₂, c, hl, hr, hcode, hrun⟩ :=
      (charTexts_of_lowerExpr hlinked).appended haccepted
    have hlone : loneCode prefixedText = c₁ ++ c₂ ++ c := by
      rw [loneCode, haccepted]
      simp [hcode, Lowering.State.start, Assembler.start]
    have hc : CodeAt prefixedLines 0 (c₁ ++ c₂ ++ c) (loneCode prefixedText).length := by
      rw [← hlone, prefixedLines, loneLines, List.append_assoc]
      exact codeAt_start _
    obtain ⟨j, hbefore, hlast⟩ := codeAt_append.mp hc
    cases hl with
    | literal hl =>
      cases hl
      cases hr with
      | literal hr =>
        cases hr
        have htext : TextAt core₁ (core₁.loadWord (core₁.get .sp)) "o" := ⟨hstored, by decide, hbelow⟩
        obtain ⟨s, core', hs, hg, h, hright⟩ := hrun hlast (.char hchar) (.text htext) (by rw [hhp])
          (by rw [hhp, hsp]; decide +kernel) (by rw [hsp]; decide)
        have hbytes := h.bytes
        cases hs
        rw [hright.mpr ⟨⟨by decide, by decide⟩, trivial⟩] at hbytes
        exact ⟨hlinked, rfl, core', (Reaches.straight hbefore hcore₁ (.refl _)).trans hg, hbytes⟩

def accentedText : Expr :=
  .call .unplaced (.var .unplaced "toString") [.literal .unplaced (.char 'é')]

def accentedLines : List Line :=
  loneLines accentedText [.charToString]

/--
The code leaves the byte 0xe9 and a zero byte, and cannot leave the bytes of the evaluator's text.
-/
theorem charTexts_accented : Linked (.usual accentedLines) accentedLines ∧
    (∃ g, lowerExpr accentedText (.start true) = .ok .string g) ∧
    Embedded.apply .toText [.char 'é'] = .ok (.text "é") ∧
    (∃ core', Reaches (.usual accentedLines) accentedLines ⟨emptyCore, 0⟩ ⟨core', (loneCode accentedText).length⟩ ∧
      EndedAt core' (core'.loadWord (core'.get .sp)) [0xe9]) ∧
    ¬∃ core', Reaches (.usual accentedLines) accentedLines ⟨emptyCore, 0⟩ ⟨core', (loneCode accentedText).length⟩ ∧
      EndedAt core' (core'.loadWord (core'.get .sp)) (bytes "é") := by
  have hlinked : Linked (.usual accentedLines) accentedLines :=
    linked_usual_routines (by decide +kernel) (by decide +kernel) (by decide +kernel)
  have hlowered : (match lowerExpr accentedText (.start true) with
      | .ok kind _ => kind == .string
      | .error .. => false) = true := by
    decide +kernel
  have hcode : loneCode accentedText = (.li .t0 (charCode 'é') :: push .t0) ++
      (pop .a0 ++ [.jal Routine.charToString.label] ++ push .a0) := by
    decide +kernel
  have hoperand : (runLines (.usual accentedLines) emptyCore (.li .t0 (charCode 'é') :: push .t0)).map (fun core =>
      decide (core.loadWord (core.get .sp) = wordOf (.char 'é') ∧ (core.get .hp).toNat = 0x10040000 ∧
        (core.get .sp).toNat = 0x7fffeff8)) = some true := by
    decide +kernel
  have hstates : allStates (.usual accentedLines) accentedLines (fun m => decide
      (m.pc = (loneCode accentedText).length → m.core.memory (m.core.loadWord (m.core.get .sp)) = 0xe9)) 30
        ⟨emptyCore, 0⟩ = true := by
    decide +kernel
  obtain ⟨core₁, hcore₁, hchecked⟩ := Option.map_eq_some_iff.mp hoperand
  obtain ⟨hchar, hhp, hsp⟩ := of_decide_eq_true hchecked
  have hc : CodeAt accentedLines 0 (loneCode accentedText) (loneCode accentedText).length := by
    rw [accentedLines, loneLines, List.append_assoc]
    exact codeAt_start _
  generalize (loneCode accentedText).length = k at hc hstates ⊢
  rw [hcode] at hc
  obtain ⟨j, hbefore, hlast⟩ := codeAt_append.mp hc
  obtain ⟨core', hg, h⟩ := pushed_of_toText hlinked hlast hchar (by rw [hhp]) (by rw [hhp, hsp]; decide)
    (by rw [hsp]; decide) (Reaches.straight hbefore hcore₁ (.refl _))
  refine ⟨hlinked, ?_, rfl, ⟨core', hg, h.bytes⟩, ?_⟩
  · cases haccepted : lowerExpr accentedText (.start true) with
    | error => simp [haccepted] at hlowered
    | ok kind g =>
      obtain rfl : kind = .string := by simpa [haccepted] using hlowered
      exact ⟨g, rfl⟩
  · rintro ⟨core'', hg', h'⟩
    have hfirst : core''.memory (core''.loadWord (core''.get .sp)) = 0xe9 :=
      of_decide_eq_true (check_of_allStates hstates hg') rfl
    exact absurd (hfirst.symm.trans h'.stored.1) (by decide)

end Arbor.Machine
