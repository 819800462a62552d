import Arbor.Proofs.Machine.Bytes
import Arbor.Proofs.Machine.Passage

/-!
This module contains the runs of the routines on strings, and of the code that pushes a string. They do on the bytes of
texts what the evaluator does on the texts, and write them to the heap.
-/

namespace Arbor.Machine

open Assembly
open Lowering (SlotKind labelCount wordOfBytes packBytes packString appendWord stringCode lowerExpr)

/-! Bytes in a loop -/

section Loops

variable {L : Layout} {lines middle : List Line} {start : Hart} {core core₀ : Core} {xs ys : List UInt8}
  {f : UInt8 → UInt8} {k k' : Nat} {src : Register} {top last : Label}

theorem signExtend_eq_zero (b : BitVec 8) : b.signExtend 32 = 0 ↔ b = 0 := by
  revert b
  decide

theorem setWidth_signExtend (b : BitVec 8) : (b.signExtend 32).setWidth 8 = b := by
  revert b
  decide

def MapsByte (L : Layout) (lines : List Line) (start : Hart) (middle : List Line) (f : UInt8 → UInt8) : Prop :=
  ∀ {core : Core} {b : UInt8} {i j : Nat}, CodeAt lines i middle j → core.get .t1 = b.toBitVec.signExtend 32 →
    Reaches L lines start ⟨core, i⟩ → ∃ core', Reaches L lines start ⟨core', j⟩ ∧
      (core'.get .t1).setWidth 8 = (f b).toBitVec ∧ core'.memory = core.memory ∧
      ∀ rd, rd ≠ .t1 → rd ≠ .t2 → core'.get rd = core.get rd

theorem appended_of_loop (hsrc : src ∈ [.a0, .a1]) (hunique : ∀ l, labelCount l lines ≤ 1)
    (hmiddle : MapsByte L lines start middle f)
    (hc : CodeAt lines k ([.label top, .lb .t1 0 src, .beqz .t1 last] ++ middle ++ appendByte .t1
      ++ [.addi src src 1, .j top, .label last]) k')
    (h : Appended core₀ core xs) (hys : BytesAt core₀.memory (core.get src) (ys ++ [0])) (hzero : 0 ∉ ys)
    (hbelow : (core.get src).toNat + ys.length < (core₀.get .hp).toNat)
    (hroom : (core₀.get .hp).toNat + (xs.length + ys.length) < 2 ^ 32) (hg : Reaches L lines start ⟨core, k⟩) :
    ∃ core', Reaches L lines start ⟨core', k'⟩ ∧ Appended core₀ core' (xs ++ ys.map f) ∧
      ∀ rd, rd ∉ [.hp, .t1, .t2, src] → core'.get rd = core.get rd := by
  have hsource : src ∈ scratch ∧ src ≠ .hp ∧ src ≠ .t1 ∧ src ≠ .t2 ∧ src ≠ .zero := by
    simp only [List.mem_cons, List.not_mem_nil, or_false] at hsrc
    rcases hsrc with rfl | rfl <;> decide
  obtain ⟨hscratch, hhp, ht₁, ht₂, hsrczero⟩ := hsource
  obtain ⟨j, hcode, htail⟩ := codeAt_append.mp hc
  obtain ⟨i, hcode, hbyte⟩ := codeAt_append.mp hcode
  obtain ⟨m, hhead, hmid⟩ := codeAt_append.mp hcode
  simp only [codeAt_instruction, codeAt_label, codeAt_nil] at hhead htail
  obtain ⟨htop, hload, htest, rfl⟩ := hhead
  obtain ⟨hnext, hagain, hlast, rfl⟩ := htail
  induction ys generalizing core xs with
  | nil =>
    have hend : core.memory (core.get src) = 0 := (h.memory _ (.inl (by omega))).trans hys.1
    have hg₁ : Reaches L lines start ⟨core.set .t1 0, k + 1 + 1⟩ := by
      apply (hg.label htop).step (step_instruction hload _)
      simp [effect, hend]
    have hdone := hg₁.branchZero htest hlast (hunique last)
    rw [Core.get_set (by decide), zeroBranchTaken] at hdone
    refine ⟨_, hdone.label hlast, ?_, fun rd hrd => Core.get_set_of_ne ?_⟩
    · rw [List.map_nil, List.append_nil]
      exact h.set (by decide)
    · rintro rfl
      exact hrd (by simp)
  | cons y ys ih =>
    obtain ⟨hy, hys⟩ := hys
    rw [List.mem_cons, not_or] at hzero
    rw [List.length_cons] at hbelow hroom
    have hfirst : core.memory (core.get src) = y.toBitVec := (h.memory _ (.inl (by omega))).trans hy
    have hg₁ : Reaches L lines start ⟨core.set .t1 (y.toBitVec.signExtend 32), k + 1 + 1⟩ := by
      apply (hg.label htop).step (step_instruction hload _)
      simp [effect, hfirst]
    have hne : y.toBitVec.signExtend 32 ≠ 0 := by
      rw [Ne, signExtend_eq_zero]
      exact fun heq => hzero.1 (UInt8.toBitVec_inj.mp heq).symm
    have hgo := hg₁.branchZero htest hlast (hunique last)
    rw [Core.get_set (by decide), zeroBranchTaken, decide_eq_false hne] at hgo
    obtain ⟨core₁, hg₁, hmapped, hmemory, hregisters⟩ := hmiddle hmid (Core.get_set (by decide)) hgo
    have hsame (rd : Register) (h₁ : rd ≠ .t1) (h₂ : rd ≠ .t2) : core₁.get rd = core.get rd :=
      (hregisters rd h₁ h₂).trans (Core.get_set_of_ne h₁)
    have hmemory : core₁.memory = core.memory := hmemory
    have hother : Appended core core₁ [] := by
      apply Appended.of_changes hmemory (hsame .hp (by decide) (by decide))
      intro rd hrd
      apply hsame
      · rintro rfl
        exact hrd (by decide)
      · rintro rfl
        exact hrd (by decide)
    have h₁ : Appended core₀ core₁ (xs ++ []) := h.trans hother
    have hpointer := h₁.pointer
    rw [List.append_nil] at h₁ hpointer
    let core₂ := (core₁.storeByte (core₁.get .hp) (f y).toBitVec).set .hp (core₁.get .hp + 1)
    let core₃ := core₂.set src (core.get src + 1)
    have h₃ : Appended core₀ core₃ (xs ++ [f y]) := (h₁.trans (Appended.byte (by omega))).set hscratch
    have hg₂ : Reaches L lines start ⟨core₂, j⟩ := by
      apply Reaches.straight hbyte _ hg₁
      simp [appendByte, runLine, effect, immediateOp, Core.get_storeByte, hmapped, core₂]
    have hsrc₂ : core₂.get src = core.get src := by
      rw [Core.get_set_of_ne hhp, Core.get_storeByte, hsame src ht₁ ht₂]
    have hg₃ : Reaches L lines start ⟨core₃, j + 1⟩ := by
      apply hg₂.step (step_instruction hnext _)
      simp [effect, immediateOp, hsrc₂, core₃]
    have hsrc' : core₃.get src = core.get src + 1 := Core.get_set hsrczero
    obtain ⟨core', hg', h', hregisters'⟩ := ih h₃ (hsrc' ▸ hys) hzero.2 (by rw [hsrc']; bv_omega)
      (by rw [List.length_append, List.length_singleton]; omega) (hg₃.jump hagain htop (hunique top))
    refine ⟨core', hg', ?_, fun rd hrd => ?_⟩
    · rw [List.append_assoc] at h'
      exact h'
    · rw [hregisters' rd hrd]
      simp only [List.mem_cons, List.not_mem_nil, or_false, not_or] at hrd
      rw [Core.get_set_of_ne hrd.2.2.2, Core.get_set_of_ne hrd.1, Core.get_storeByte, hsame rd hrd.2.1 hrd.2.2.1]

theorem mapsByte_nil : MapsByte L lines start [] id := by
  intro core b i j hc ht₁ hg
  cases hc
  refine ⟨core, hg, ?_, rfl, fun _ _ _ => rfl⟩
  rw [ht₁, setWidth_signExtend]
  rfl

def shiftLines (first final : Char) (delta : Int) (last : Label) : List Line :=
  [.li .t2 (charCode first), .blt .t1 .t2 last, .li .t2 (charCode final), .bgt .t1 .t2 last, .addi .t1 .t1 delta,
    .label last]

/--
Bytes are compared as signed numbers, so that those that do not stand for ASCII characters are lower than all others.
-/
theorem mapsByte_shift {first final : Char} {delta : Int} (hunique : ∀ l, labelCount l lines ≤ 1)
    (hshift : ∀ b : BitVec 8, (if (b.signExtend 32).slt (.ofInt 32 (charCode first)) then b.signExtend 32
      else if (BitVec.ofInt 32 (charCode final)).slt (b.signExtend 32) then b.signExtend 32
      else b.signExtend 32 + .ofInt 32 delta).setWidth 8 = (f ⟨b⟩).toBitVec) :
    MapsByte L lines start (shiftLines first final delta last) f := by
  intro core b i j hc ht₁ hg
  simp only [shiftLines, codeAt_instruction, codeAt_label, codeAt_nil] at hc
  obtain ⟨hli, hblt, hli', hbgt, haddi, hlast, rfl⟩ := hc
  have hmapped := hshift b.toBitVec
  have hg₁ := (hg.step (step_instruction hli rfl)).branch hblt hlast (hunique last)
  rw [Core.get_set_of_ne (by decide), Core.get_set (by decide), ht₁, branchTaken] at hg₁
  split at hmapped
  · next hlow =>
    rw [hlow, if_pos rfl] at hg₁
    refine ⟨_, hg₁.label hlast, ?_, rfl, fun rd h₁ h₂ => Core.get_set_of_ne h₂⟩
    rw [Core.get_set_of_ne (by decide), ht₁, hmapped]
  · next hlow =>
    rw [if_neg hlow] at hg₁
    have hg₂ := (hg₁.step (step_instruction hli' rfl)).branch hbgt hlast (hunique last)
    rw [Core.set_set, Core.get_set_of_ne (by decide), Core.get_set (by decide), ht₁, branchTaken] at hg₂
    split at hmapped
    · next hhigh =>
      rw [hhigh, if_pos rfl] at hg₂
      refine ⟨_, hg₂.label hlast, ?_, rfl, fun rd h₁ h₂ => Core.get_set_of_ne h₂⟩
      rw [Core.get_set_of_ne (by decide), ht₁, hmapped]
    · next hhigh =>
      rw [if_neg hhigh] at hg₂
      have hg₃ := (hg₂.step (step_instruction haddi rfl)).label hlast
      refine ⟨_, hg₃, ?_, rfl, fun rd h₁ h₂ => ?_⟩
      · rw [Core.get_set (by decide), Core.get_set_of_ne (by decide), immediateOp, ht₁, hmapped]
      · rw [Core.get_set_of_ne h₁, Core.get_set_of_ne h₂]

theorem mapsByte_toUpper (hunique : ∀ l, labelCount l lines ≤ 1) :
    MapsByte L lines start (shiftLines 'a' 'z' (-32) last) (shiftByte 97 122 224) := by
  apply mapsByte_shift hunique
  decide +kernel

theorem mapsByte_toLower (hunique : ∀ l, labelCount l lines ≤ 1) :
    MapsByte L lines start (shiftLines 'A' 'Z' 32 last) (shiftByte 65 90 32) := by
  apply mapsByte_shift hunique
  decide +kernel

end Loops

/-! New texts -/

def textSize (s : String) : Nat :=
  4 * ((bytes s).length / 4 + 1)

/--
A text without a zero byte lies from an address on, ended by a zero byte, below the pointer to the heap.
-/
structure TextAt (core : Core) (a : Word) (s : String) : Prop where
  stored : BytesAt core.memory a (bytes s ++ [0])
  ended : '\x00' ∉ s.toList
  below : a.toNat + (bytes s).length < (core.get .hp).toNat

structure NewText (core core' : Core) (s : String) : Prop where
  text : TextAt core' (core.get .hp) s
  below : ∀ a : Word, a.toNat < (core.get .hp).toNat → core'.memory a = core.memory a
  pointer : (core'.get .hp).toNat = (core.get .hp).toNat + textSize s
  aligned : (core'.get .hp).toNat % 4 = 0

/--
A routine returned a new text. It wrote nothing else, and changed no other registers but scratch registers.
-/
structure Returned (core core' : Core) (s : String) : Prop extends NewText core core' s where
  address : core'.get .a0 = core.get .hp
  above : ∀ a : Word, (core'.get .hp).toNat ≤ a.toNat → core'.memory a = core.memory a
  registers : ∀ rd, rd ∉ .hp :: .ra :: scratch → core'.get rd = core.get rd

structure EndedAt (core : Core) (a : Word) (xs : List UInt8) : Prop where
  stored : BytesAt core.memory a (xs ++ [0])
  zero_notMem : 0 ∉ xs
  below : a.toNat + xs.length < (core.get .hp).toNat

structure Wrote (core core' : Core) (xs : List UInt8) : Prop where
  bytes : EndedAt core' (core.get .hp) xs
  below : ∀ a : Word, a.toNat < (core.get .hp).toNat → core'.memory a = core.memory a
  pointer : (core'.get .hp).toNat = (core.get .hp).toNat + 4 * (xs.length / 4 + 1)
  aligned : (core'.get .hp).toNat % 4 = 0
  address : core'.get .a0 = core.get .hp
  above : ∀ a : Word, (core'.get .hp).toNat ≤ a.toNat → core'.memory a = core.memory a
  registers : ∀ rd, rd ∉ .hp :: .ra :: scratch → core'.get rd = core.get rd

structure OnlySets (rs : List Register) (core core' : Core) : Prop where
  registers : ∀ rd, rd ∉ rs → core'.get rd = core.get rd
  memory : core'.memory = core.memory
  output : core'.output = core.output

namespace OnlySets

variable {rs rs' : List Register} {rd : Register} {core core' core'' : Core} {w : Word} {s : String}

theorem refl (core : Core) : OnlySets rs core core :=
  ⟨fun _ _ => rfl, rfl, rfl⟩

theorem trans (h : OnlySets rs core core') (h' : OnlySets rs core' core'') : OnlySets rs core core'' :=
  ⟨fun rd hrd => (h'.registers rd hrd).trans (h.registers rd hrd), h'.memory.trans h.memory, h'.output.trans h.output⟩

theorem mono (h : OnlySets rs core core') (hsubset : rs ⊆ rs') : OnlySets rs' core core' :=
  ⟨fun rd hrd => h.registers rd fun hmem => hrd (hsubset hmem), h.memory, h.output⟩

theorem set (h : OnlySets rs core core') (hrd : rd ∈ rs) : OnlySets rs core (core'.set rd w) := by
  refine ⟨fun rd' hrd' => ?_, h.memory, h.output⟩
  have hne : rd' ≠ rd := fun heq => hrd' (heq ▸ hrd)
  rw [Core.get_set_of_ne hne, h.registers rd' hrd']

theorem textAt (h : OnlySets rs core core') (hhp : .hp ∉ rs) (hs : TextAt core w s) : TextAt core' w s := by
  refine ⟨?_, hs.ended, ?_⟩
  · rw [h.memory]
    exact hs.stored
  · rw [h.registers .hp hhp]
    exact hs.below

end OnlySets

section Routines

variable {L : Layout} {lines : List Line} {start : Hart} {core core₀ core' : Core} {s t : String} {k k' m : Nat}
  {w : Word} {xs ys : List UInt8}

theorem textAt_iff : TextAt core w s ↔ EndedAt core w (bytes s) :=
  ⟨fun h => ⟨h.stored, fun hmem => h.ended (zero_mem_bytes.mp hmem), h.below⟩,
    fun h => ⟨h.stored, fun hmem => h.zero_notMem (zero_mem_bytes.mpr hmem), h.below⟩⟩

theorem TextAt.zero_notMem (h : TextAt core w s) : 0 ∉ bytes s :=
  (textAt_iff.mp h).zero_notMem

theorem returned_iff : Returned core core' s ↔ Wrote core core' (bytes s) :=
  ⟨fun h => ⟨textAt_iff.mp h.text, h.below, h.pointer, h.aligned, h.address, h.above, h.registers⟩,
    fun h => ⟨⟨textAt_iff.mpr h.bytes, h.below, h.pointer, h.aligned⟩, h.address, h.above, h.registers⟩⟩

theorem Wrote.of_setRa (h : Wrote (core.set .ra w) core' xs) : Wrote core core' xs where
  bytes := h.bytes
  below := h.below
  pointer := h.pointer
  aligned := h.aligned
  address := h.address
  above := h.above
  registers rd hrd := by
    simp only [List.mem_cons, not_or] at hrd
    rw [h.registers rd (by simp only [List.mem_cons, not_or]; exact hrd), Core.get_set_of_ne hrd.2.1]

theorem Returned.of_setRa (h : Returned (core.set .ra w) core' s) : Returned core core' s :=
  returned_iff.mpr (returned_iff.mp h).of_setRa

theorem wrote_of_finish (hzero : 0 ∉ xs) (h : Appended core₀ core xs)
    (haligned : (core₀.get .hp).toNat % 4 = 0) (ht₀ : core.get .t0 = core₀.get .hp)
    (hroom : (core₀.get .hp).toNat + 4 * (xs.length / 4 + 1) < 2 ^ 32) (hg : Reaches L lines start ⟨core, k⟩)
    (hc : CodeAt lines k (finishString .t0) k') :
    ∃ core', Reaches L lines start ⟨core', k'⟩ ∧ Wrote core₀ core' xs ∧ core'.get .ra = core.get .ra := by
  have hpointer := h.pointer
  have hc : CodeAt lines k (appendByte .zero ++ (.mv .a0 .t0 :: alignHeap)) k' := hc
  obtain ⟨j, hend, hc⟩ := codeAt_append.mp hc
  obtain ⟨hmv, halign⟩ := codeAt_instruction.mp hc
  let core₁ := (core.storeByte (core.get .hp) (0 : UInt8).toBitVec).set .hp (core.get .hp + 1)
  have h₁ : Appended core₀ core₁ (xs ++ [0]) := h.trans (Appended.byte (by omega))
  have hpointer₁ := h₁.pointer
  rw [List.length_append, List.length_singleton] at hpointer₁
  have hg₁ : Reaches L lines start ⟨core₁, j⟩ := by
    apply Reaches.straight hend _ hg
    simp [appendByte, runLine, effect, immediateOp, Core.get_storeByte, core₁]
    rfl
  have ht₀' : core₁.get .t0 = core₀.get .hp := by
    rw [Core.get_set_of_ne (by decide), Core.get_storeByte, ht₀]
  let core₂ := core₁.set .a0 (core₀.get .hp)
  have hg₂ : Reaches L lines start ⟨core₂, j + 1⟩ := by
    apply hg₁.step (step_instruction hmv _)
    rw [effect, moveOp, ht₀']
  let w := (core₂.get .hp + 3) &&& BitVec.ofInt 32 (-4)
  have hw : w.toNat = (core₀.get .hp).toNat + 4 * (xs.length / 4 + 1) := by
    have hnext : (core₂.get .hp + 3).toNat = (core₁.get .hp).toNat + 3 := by
      rw [Core.get_set_of_ne (by decide)]
      bv_omega
    rw [toNat_and_four, hnext]
    omega
  have h₂ : Appended core₀ core₂ (xs ++ [0]) := h₁.set (by decide)
  have hnew (a : Word) (ha : a.toNat < (core₀.get .hp).toNat ∨ w.toNat ≤ a.toNat) :
      core₂.memory a = core₀.memory a := by
    apply h₂.memory
    rw [Core.get_set_of_ne (by decide)]
    omega
  have hhp : (core₂.set .hp w).get .hp = w := Core.get_set (by decide)
  refine ⟨core₂.set .hp w, ?_, ⟨⟨h₂.bytes, hzero, ?_⟩, fun a ha => hnew a (.inl ha), hhp ▸ hw, ?_, ?_, ?_, ?_⟩, ?_⟩
  · simp only [alignHeap, codeAt_instruction, codeAt_nil] at halign
    obtain ⟨haddi, handi, rfl⟩ := halign
    have hg₃ := (hg₂.step (step_instruction haddi rfl)).step (step_instruction handi rfl)
    rw [Core.set_set, Core.get_set (by decide)] at hg₃
    exact hg₃
  · rw [hhp]
    omega
  · rw [hhp]
    omega
  · rw [Core.get_set_of_ne (by decide), Core.get_set (by decide)]
  · rw [hhp]
    exact fun a ha => hnew a (.inr ha)
  · intro rd hrd
    simp only [List.mem_cons, not_or] at hrd
    rw [Core.get_set_of_ne hrd.1]
    apply h₂.registers
    simp only [List.mem_cons, not_or]
    exact ⟨hrd.1, hrd.2.2⟩
  · rw [Core.get_set_of_ne (by decide), Core.get_set_of_ne (by decide), Core.get_set_of_ne (by decide),
      Core.get_storeByte]

theorem returned_of_finish (hended : '\x00' ∉ s.toList) (h : Appended core₀ core (bytes s))
    (haligned : (core₀.get .hp).toNat % 4 = 0) (ht₀ : core.get .t0 = core₀.get .hp)
    (hroom : (core₀.get .hp).toNat + textSize s < 2 ^ 32) (hg : Reaches L lines start ⟨core, k⟩)
    (hc : CodeAt lines k (finishString .t0) k') :
    ∃ core', Reaches L lines start ⟨core', k'⟩ ∧ Returned core₀ core' s ∧ core'.get .ra = core.get .ra := by
  have hzero : 0 ∉ bytes s := fun hmem => hended (zero_mem_bytes.mp hmem)
  obtain ⟨core', hg', h', hra⟩ := wrote_of_finish hzero h haligned ht₀ hroom hg hc
  exact ⟨core', hg', returned_iff.mpr h', hra⟩

theorem Linked.returns (hlinked : Linked L lines) {r : Routine} {P : Core → Prop}
    (hcall : lines[m]? = some (.jal r.label)) (hlength : m + 1 < lines.length)
    (hg : Reaches L lines start ⟨core, m⟩)
    (hbody : ∀ {i j : Nat}, CodeAt lines i r.body j → lines[j]? = some .ret →
      Reaches L lines start ⟨core.set .ra (L.code (m + 1)), i⟩ → ∃ core' n, Reaches L lines start ⟨core', n⟩ ∧
        lines[n]? = some .ret ∧ core'.get .ra = L.code (m + 1) ∧ P core') :
    ∃ core', Reaches L lines start ⟨core', m + 1⟩ ∧ P core' := by
  obtain ⟨k, k', hc⟩ := hlinked.routine r (List.mem_of_getElem? hcall)
  obtain ⟨hlabel, hc⟩ := codeAt_label.mp hc
  obtain ⟨j, hc, hret⟩ := codeAt_append.mp hc
  have hgo := (hg.call hcall hlabel (hlinked.unique _)).label hlabel
  obtain ⟨core', n, hg', hret', hra, hP⟩ := hbody hc (codeAt_instruction.mp hret).1 hgo
  exact ⟨core', hg'.ret hret' hcall hlength hlinked.fits hra, hP⟩

/--
The routine that appends bytes to bytes knows nothing of the characters that they encode.
-/
theorem wrote_concatString (hlinked : Linked L lines) (hcall : lines[m]? = some (.jal Routine.concatString.label))
    (hlength : m + 1 < lines.length) (hg : Reaches L lines start ⟨core, m⟩) (hxs : EndedAt core (core.get .a0) xs)
    (hys : EndedAt core (core.get .a1) ys) (haligned : (core.get .hp).toNat % 4 = 0)
    (hroom : (core.get .hp).toNat + 4 * ((xs ++ ys).length / 4 + 1) < 2 ^ 32) :
    ∃ core', Reaches L lines start ⟨core', m + 1⟩ ∧ Wrote core core' (xs ++ ys) := by
  apply hlinked.returns hcall hlength hg
  intro i j hc hret hg
  have hrooms := hroom
  rw [List.length_append] at hrooms
  have hzero : 0 ∉ xs ++ ys := by
    rw [List.mem_append, not_or]
    exact ⟨hxs.zero_notMem, hys.zero_notMem⟩
  let core₀ := core.set .ra (L.code (m + 1))
  have hhp : core₀.get .hp = core.get .hp := rfl
  have hc : CodeAt lines i (.comment "a0 = a0 ++ a1, copied to the heap" :: .mv .t0 .hp ::
    (copyBytes .a0 (Routine.concatString.place "first") (Routine.concatString.place "second") ++
      (copyBytes .a1 (Routine.concatString.place "copy") (Routine.concatString.place "done") ++
        finishString .t0))) j := hc
  obtain ⟨i₀, hg, -, hc⟩ := hg.comment hc
  obtain ⟨hmv, hc⟩ := codeAt_instruction.mp hc
  obtain ⟨i₁, hfirst, hc⟩ := codeAt_append.mp hc
  obtain ⟨i₂, hsecond, hfinish⟩ := codeAt_append.mp hc
  let core₁ := core₀.set .t0 (core₀.get .hp)
  have h₁ : Appended core₀ core₁ [] := (Appended.refl core₀).set (by decide)
  obtain ⟨core₂, hg₂, h₂, hsame₂⟩ := appended_of_loop (by decide) hlinked.unique mapsByte_nil hfirst h₁ hxs.stored
    hxs.zero_notMem hxs.below (by rw [hhp, List.length_nil]; omega) (hg.step (step_instruction hmv rfl))
  rw [List.map_id, List.nil_append] at h₂
  have ha₁ : core₂.get .a1 = core.get .a1 := hsame₂ .a1 (by decide)
  obtain ⟨core₃, hg₃, h₃, hsame₃⟩ := appended_of_loop (by decide) hlinked.unique mapsByte_nil hsecond h₂
    (ha₁ ▸ hys.stored) hys.zero_notMem (ha₁ ▸ hys.below) (by rw [hhp]; omega) hg₂
  rw [List.map_id] at h₃
  have hkept (rd : Register) (h₂ : rd ∉ [.hp, .t1, .t2, .a0]) (h₃ : rd ∉ [.hp, .t1, .t2, .a1]) :
      core₃.get rd = core₁.get rd :=
    (hsame₃ rd h₃).trans (hsame₂ rd h₂)
  obtain ⟨core₄, hg₄, h₄, hra⟩ := wrote_of_finish hzero h₃ haligned (hkept .t0 (by decide) (by decide)) hroom
    hg₃ hfinish
  refine ⟨core₄, j, hg₄, hret, ?_, h₄.of_setRa⟩
  rw [hra, hkept .ra (by decide) (by decide)]
  rfl

theorem returned_concatString (hlinked : Linked L lines) (hcall : lines[m]? = some (.jal Routine.concatString.label))
    (hlength : m + 1 < lines.length) (hg : Reaches L lines start ⟨core, m⟩) (hs : TextAt core (core.get .a0) s)
    (ht : TextAt core (core.get .a1) t) (haligned : (core.get .hp).toNat % 4 = 0)
    (hroom : (core.get .hp).toNat + textSize (s ++ t) < 2 ^ 32) :
    ∃ core', Reaches L lines start ⟨core', m + 1⟩ ∧ Returned core core' (s ++ t) := by
  rw [textSize, bytes_append] at hroom
  obtain ⟨core', hg', h⟩ := wrote_concatString hlinked hcall hlength hg (textAt_iff.mp hs) (textAt_iff.mp ht)
    haligned hroom
  rw [← bytes_append] at h
  exact ⟨core', hg', returned_iff.mpr h⟩

theorem returned_of_mapCase {r : Routine} {first final : Char} {delta : Int} {f : UInt8 → UInt8} {t : String}
    (hbody : r.body = Routine.mapCase r first final delta)
    (hmap : MapsByte L lines start (shiftLines first final delta (r.place "store")) f) (ht : bytes t = (bytes s).map f)
    (hzero : ∀ b : BitVec 8, f ⟨b⟩ = 0 ↔ b = 0) (hlinked : Linked L lines)
    (hcall : lines[m]? = some (.jal r.label)) (hlength : m + 1 < lines.length)
    (hg : Reaches L lines start ⟨core, m⟩) (hs : TextAt core (core.get .a0) s)
    (haligned : (core.get .hp).toNat % 4 = 0) (hroom : (core.get .hp).toNat + textSize t < 2 ^ 32) :
    ∃ core', Reaches L lines start ⟨core', m + 1⟩ ∧ Returned core core' t := by
  apply hlinked.returns hcall hlength hg
  intro i j hc hret hg
  have hrooms := hroom
  rw [textSize, ht, List.length_map] at hrooms
  have hended : '\x00' ∉ t.toList := by
    rw [← zero_mem_bytes, ht, List.mem_map]
    rintro ⟨b, hb, hfb⟩
    have hb₀ : b = 0 := UInt8.toBitVec_inj.mp ((hzero b.toBitVec).mp hfb)
    exact hs.zero_notMem (hb₀ ▸ hb)
  let core₀ := core.set .ra (L.code (m + 1))
  have hhp : core₀.get .hp = core.get .hp := rfl
  rw [hbody] at hc
  have hc : CodeAt lines i (.mv .t0 .hp :: (([.label (r.place "loop"), .lb .t1 0 .a0, .beqz .t1 (r.place "done")] ++
    shiftLines first final delta (r.place "store") ++ appendByte .t1 ++
    [.addi .a0 .a0 1, .j (r.place "loop"), .label (r.place "done")]) ++ finishString .t0)) j := hc
  obtain ⟨hmv, hc⟩ := codeAt_instruction.mp hc
  obtain ⟨i₁, hloop, hfinish⟩ := codeAt_append.mp hc
  let core₁ := core₀.set .t0 (core₀.get .hp)
  have h₁ : Appended core₀ core₁ [] := (Appended.refl core₀).set (by decide)
  obtain ⟨core₂, hg₂, h₂, hsame⟩ := appended_of_loop (by decide) hlinked.unique hmap hloop h₁ hs.stored
    hs.zero_notMem hs.below (by rw [hhp, List.length_nil]; omega) (hg.step (step_instruction hmv rfl))
  rw [List.nil_append, ← ht] at h₂
  obtain ⟨core₃, hg₃, h₃, hra⟩ := returned_of_finish hended h₂ haligned (hsame .t0 (by decide)) hroom hg₂ hfinish
  refine ⟨core₃, j, hg₃, hret, ?_, h₃.of_setRa⟩
  rw [hra, hsame .ra (by decide)]
  rfl

def compareLines (top equal different : Label) : List Line :=
  [.label top, .lb .t0 0 .a0, .lb .t1 0 .a1, .bne .t0 .t1 different, .beqz .t0 equal, .addi .a0 .a0 1, .addi .a1 .a1 1,
    .j top, .label equal, .li .a0 1, .ret, .label different, .li .a0 0, .ret]

structure Compared (core core' : Core) (b : Bool) : Prop where
  result : core'.get .a0 = if b then 1 else 0
  memory : core'.memory = core.memory
  registers : ∀ rd, rd ∉ .ra :: scratch → core'.get rd = core.get rd

section Comparison

variable {top equal different : Label} {x y : UInt8}

theorem Reaches.compared (hunique : ∀ l, labelCount l lines ≤ 1)
    (hc : CodeAt lines k (compareLines top equal different) k')
    (hx : core.memory (core.get .a0) = x.toBitVec) (hy : core.memory (core.get .a1) = y.toBitVec)
    (hg : Reaches L lines start ⟨core, k⟩) :
    Reaches L lines start ⟨(core.set .t0 (x.toBitVec.signExtend 32)).set .t1 (y.toBitVec.signExtend 32),
      if x = y then (if x = 0 then k + 8 else k + 5) else k + 11⟩ := by
  simp only [compareLines, codeAt_instruction, codeAt_label, codeAt_nil] at hc
  obtain ⟨htop, hload, hload', hbne, hbeqz, -, -, -, hequal, -, -, hdifferent, -⟩ := hc
  have hg₁ : Reaches L lines start ⟨core.set .t0 (x.toBitVec.signExtend 32), k + 1 + 1⟩ := by
    apply (hg.label htop).step (step_instruction hload _)
    simp [effect, hx]
  have hg₂ : Reaches L lines start
      ⟨(core.set .t0 (x.toBitVec.signExtend 32)).set .t1 (y.toBitVec.signExtend 32), k + 1 + 1 + 1⟩ := by
    apply hg₁.step (step_instruction hload' _)
    have hsame : (core.set .t0 (x.toBitVec.signExtend 32)).get .a1 = core.get .a1 := Core.get_set_of_ne (by decide)
    have hmemory : (core.set .t0 (x.toBitVec.signExtend 32)).memory = core.memory := rfl
    simp [effect, hsame, hmemory, hy]
  have hbytes : x.toBitVec.signExtend 32 = y.toBitVec.signExtend 32 ↔ x = y := by
    refine ⟨fun h => ?_, fun h => h ▸ rfl⟩
    have hwidth := congrArg (BitVec.setWidth 8) h
    rw [setWidth_signExtend, setWidth_signExtend] at hwidth
    exact UInt8.toBitVec_inj.mp hwidth
  have hzero : x.toBitVec.signExtend 32 = 0 ↔ x = 0 := by
    rw [signExtend_eq_zero]
    exact UInt8.toBitVec_inj (b := 0)
  have hg₃ := hg₂.branch hbne hdifferent (hunique _)
  rw [Core.get_set (by decide), Core.get_set_of_ne (by decide), Core.get_set (by decide), branchTaken] at hg₃
  by_cases hxy : x = y
  · rw [if_pos hxy]
    rw [if_neg (by simpa using hbytes.mpr hxy)] at hg₃
    have hg₄ := hg₃.branchZero hbeqz hequal (hunique _)
    rw [Core.get_set_of_ne (by decide), Core.get_set (by decide), zeroBranchTaken] at hg₄
    simpa only [hzero, decide_eq_true_eq] using hg₄
  · rw [if_neg hxy]
    rwa [if_pos (by simpa using fun h => hxy (hbytes.mp h))] at hg₃

theorem Compared.of_onlySets {b : Bool} (h : OnlySets [.ra, .t0, .t1, .a0, .a1] core core')
    (hresult : core'.get .a0 = if b then 1 else 0) : Compared core core' b where
  result := hresult
  memory := h.memory
  registers := (h.mono (by decide)).registers

theorem compared_of_loop (hunique : ∀ l, labelCount l lines ≤ 1)
    (hc : CodeAt lines k (compareLines top equal different) k')
    (hxs : BytesAt core.memory (core.get .a0) (xs ++ [0])) (hys : BytesAt core.memory (core.get .a1) (ys ++ [0]))
    (hx : 0 ∉ xs) (hy : 0 ∉ ys) (hg : Reaches L lines start ⟨core, k⟩) :
    ∃ core' n, Reaches L lines start ⟨core', n⟩ ∧ lines[n]? = some .ret ∧
      OnlySets [.t0, .t1, .a0, .a1] core core' ∧ core'.get .a0 = if xs = ys then 1 else 0 := by
  have hcode := hc
  simp only [compareLines, codeAt_instruction, codeAt_label, codeAt_nil] at hcode
  obtain ⟨htop, -, -, -, -, hnext, hnext', hagain, hequal, hone, hret, hdifferent, hzero, hret', -⟩ := hcode
  have hset (core : Core) (u v w : Word) :
      OnlySets [.t0, .t1, .a0, .a1] core (((core.set .t0 u).set .t1 v).set .a0 w) :=
    (((OnlySets.refl core).set (by decide)).set (by decide)).set (by decide)
  have hdiffer {core : Core} {v w : Word} (hg : Reaches L lines start ⟨(core.set .t0 v).set .t1 w, k + 11⟩) :
      ∃ core' n, Reaches L lines start ⟨core', n⟩ ∧ lines[n]? = some .ret ∧
        OnlySets [.t0, .t1, .a0, .a1] core core' ∧ core'.get .a0 = 0 :=
    ⟨_, _, (hg.label hdifferent).step (step_instruction hzero rfl), hret', hset core v w 0, rfl⟩
  induction xs generalizing core ys with
  | nil =>
    cases ys with
    | nil =>
      have hg₁ := (hg.compared hunique hc hxs.1 hys.1).label hequal
      exact ⟨_, _, hg₁.step (step_instruction hone rfl), hret, hset core _ _ 1, rfl⟩
    | cons y ys =>
      rw [List.mem_cons, not_or] at hy
      have hg₁ := hg.compared hunique hc hxs.1 hys.1
      rw [if_neg hy.1] at hg₁
      exact hdiffer hg₁
  | cons x xs ih =>
    rw [List.mem_cons, not_or] at hx
    cases ys with
    | nil =>
      have hg₁ := hg.compared hunique hc hxs.1 hys.1
      rw [if_neg (Ne.symm hx.1)] at hg₁
      exact hdiffer hg₁
    | cons y ys =>
      rw [List.mem_cons, not_or] at hy
      have hg₁ := hg.compared hunique hc hxs.1 hys.1
      by_cases hxy : x = y
      · subst hxy
        rw [if_pos rfl, if_neg (Ne.symm hx.1)] at hg₁
        let core₁ := (core.set .t0 (x.toBitVec.signExtend 32)).set .t1 (x.toBitVec.signExtend 32)
        let core₂ := (core₁.set .a0 (core.get .a0 + 1)).set .a1 (core.get .a1 + 1)
        have hg₂ : Reaches L lines start ⟨core₂, k⟩ :=
          ((hg₁.step (step_instruction hnext rfl)).step (step_instruction hnext' rfl)).jump hagain htop (hunique _)
        have ha₀ : core₂.get .a0 = core.get .a0 + 1 := rfl
        have ha₁ : core₂.get .a1 = core.get .a1 + 1 := rfl
        have h₂ : OnlySets [.t0, .t1, .a0, .a1] core core₂ := (hset core _ _ _).set (by decide)
        obtain ⟨core', n, hg', hret, h', hresult⟩ := ih (ha₀ ▸ hxs.2) (ha₁ ▸ hys.2) hx.2 hy.2 hg₂
        refine ⟨core', n, hg', hret, h₂.trans h', ?_⟩
        simpa using hresult
      · rw [if_neg hxy] at hg₁
        rw [if_neg (by simp [hxy])]
        exact hdiffer hg₁

theorem onlySets_strEquals (hlinked : Linked L lines) (hcall : lines[m]? = some (.jal Routine.strEquals.label))
    (hlength : m + 1 < lines.length) (hg : Reaches L lines start ⟨core, m⟩) (hxs : EndedAt core (core.get .a0) xs)
    (hys : EndedAt core (core.get .a1) ys) :
    ∃ core', Reaches L lines start ⟨core', m + 1⟩ ∧ OnlySets [.ra, .t0, .t1, .a0, .a1] core core' ∧
      core'.get .a0 = if xs = ys then 1 else 0 := by
  apply hlinked.returns hcall hlength hg
  intro i j hc hret hg
  let core₀ := core.set .ra (L.code (m + 1))
  have h₀ : OnlySets [.ra, .t0, .t1, .a0, .a1] core core₀ := (OnlySets.refl core).set (by decide)
  have hc : CodeAt lines i (.comment "a0 = 1 if the strings at a0 and a1 are equal" ::
      compareLines (Routine.strEquals.place "loop") (Routine.strEquals.place "eq") (Routine.strEquals.place "ne"))
      (j + 1) :=
    codeAt_append.mpr ⟨j, hc, codeAt_instruction.mpr ⟨hret, codeAt_nil.mpr rfl⟩⟩
  obtain ⟨i', hg, -, hc⟩ := hg.comment hc
  obtain ⟨core', n, hg', hret, h, hresult⟩ := @compared_of_loop L lines start core₀ _ _ _ _ _ _ _ hlinked.unique hc
    hxs.stored hys.stored hxs.zero_notMem hys.zero_notMem hg
  exact ⟨core', n, hg', hret, h.registers .ra (by decide), h₀.trans (h.mono (by decide)), hresult⟩

theorem compared_strEquals (hlinked : Linked L lines) (hcall : lines[m]? = some (.jal Routine.strEquals.label))
    (hlength : m + 1 < lines.length) (hg : Reaches L lines start ⟨core, m⟩) (hs : TextAt core (core.get .a0) s)
    (ht : TextAt core (core.get .a1) t) :
    ∃ core', Reaches L lines start ⟨core', m + 1⟩ ∧ Compared core core' (s = t) := by
  obtain ⟨core', hg', h, hresult⟩ := onlySets_strEquals hlinked hcall hlength hg (textAt_iff.mp hs) (textAt_iff.mp ht)
  simp only [bytes_inj] at hresult
  exact ⟨core', hg', .of_onlySets h (by simpa using hresult)⟩

end Comparison

/-! Literals -/

theorem length_packBytes (xs : List UInt8) : (packBytes xs).length = (xs.length + 3) / 4 := by
  fun_induction packBytes xs with
  | case1 | case2 | case3 | case4 => simp
  | case5 b₀ b₁ b₂ b₃ rest ih =>
    simp only [List.length_cons, ih]
    omega

theorem appended_of_word {b₀ b₁ b₂ b₃ : UInt8} (hroom : (core.get .hp).toNat + 4 < 2 ^ 32)
    (hc : CodeAt lines k (appendWord (wordOfBytes b₀ b₁ b₂ b₃)) k') (hg : Reaches L lines start ⟨core, k⟩) :
    ∃ core', Reaches L lines start ⟨core', k'⟩ ∧ Appended core core' [b₀, b₁, b₂, b₃] := by
  let w : Word := .ofInt 32 (wordOfBytes b₀ b₁ b₂ b₃)
  let core₁ := core.set .t1 w
  refine ⟨(core₁.storeWord (core₁.get .hp) w).set .hp (core₁.get .hp + 4), Reaches.straight hc ?_ hg, ?_⟩
  · simp [appendWord, runLine, effect, immediateOp, Core.get_set, wordBytes, core₁, w]
  · exact ((Appended.refl core).set (by decide)).trans (Appended.word hroom)

theorem appended_of_words {xs : List UInt8} (hroom : (core.get .hp).toNat + 4 * (packBytes xs).length < 2 ^ 32)
    (hc : CodeAt lines k ((packBytes xs).flatMap appendWord) k') (hg : Reaches L lines start ⟨core, k⟩) :
    ∃ core' pad, Reaches L lines start ⟨core', k'⟩ ∧ Appended core core' (xs ++ pad) ∧
      (xs ++ pad).length = 4 * (packBytes xs).length := by
  fun_induction packBytes xs generalizing core k with
  | case1 =>
    cases hc
    exact ⟨core, [], hg, .refl core, rfl⟩
  | case2 b₀ =>
    rw [List.flatMap_singleton] at hc
    obtain ⟨core', hg', h⟩ := appended_of_word hroom hc hg
    exact ⟨core', [0, 0, 0], hg', h, rfl⟩
  | case3 b₀ b₁ =>
    rw [List.flatMap_singleton] at hc
    obtain ⟨core', hg', h⟩ := appended_of_word hroom hc hg
    exact ⟨core', [0, 0], hg', h, rfl⟩
  | case4 b₀ b₁ b₂ =>
    rw [List.flatMap_singleton] at hc
    obtain ⟨core', hg', h⟩ := appended_of_word hroom hc hg
    exact ⟨core', [0], hg', h, rfl⟩
  | case5 b₀ b₁ b₂ b₃ rest ih =>
    rw [List.flatMap_cons] at hc
    rw [List.length_cons] at hroom
    obtain ⟨m, hfirst, hrest⟩ := codeAt_append.mp hc
    obtain ⟨core₁, hg₁, h₁⟩ := appended_of_word (by omega) hfirst hg
    have hpointer := h₁.pointer
    simp only [List.length_cons, List.length_nil] at hpointer
    obtain ⟨core', pad, hg', h', hlength⟩ := ih (by omega) hrest hg₁
    refine ⟨core', pad, hg', h₁.trans h', ?_⟩
    simp only [List.length_append, List.length_cons] at hlength ⊢
    omega

theorem newText_of_words (hended : '\x00' ∉ s.toList) (haligned : (core.get .hp).toNat % 4 = 0)
    (hroom : (core.get .hp).toNat + textSize s < 2 ^ 32)
    (hc : CodeAt lines k ((packString s).flatMap appendWord) k') (hg : Reaches L lines start ⟨core, k⟩) :
    ∃ core', Reaches L lines start ⟨core', k'⟩ ∧ NewText core core' s ∧
      (∀ a : Word, (core'.get .hp).toNat ≤ a.toNat → core'.memory a = core.memory a) ∧
      ∀ rd, rd ∉ .hp :: scratch → core'.get rd = core.get rd := by
  have hlength : (packString s).length = (bytes s).length / 4 + 1 := by
    rw [packString, toList_toUTF8, length_packBytes, List.length_append, List.length_singleton]
    omega
  have hsize : textSize s = 4 * (packString s).length := by rw [hlength, textSize]
  rw [packString, toList_toUTF8] at hc hsize
  obtain ⟨core', pad, hg', h', hpad⟩ := appended_of_words (by omega) hc hg
  have hbytes := h'.bytes
  have hpointer := h'.pointer
  rw [hpad, ← hsize] at hpointer
  refine ⟨core', hg', ⟨⟨(bytesAt_append.mp hbytes).1, hended, ?_⟩, fun a ha => h'.memory a (.inl ha), hpointer, ?_⟩,
    fun a ha => h'.memory a (.inr ha), h'.registers⟩
  · rw [hpointer, textSize]
    omega
  · rw [hpointer]
    omega

theorem pushed_of_stringCode (hended : '\x00' ∉ s.toList) (haligned : (core.get .hp).toNat % 4 = 0)
    (hroom : (core.get .hp).toNat + textSize s + 4 ≤ (core.get .sp).toNat) (hc : CodeAt lines k (stringCode s) k')
    (hg : Reaches L lines start ⟨core, k⟩) :
    ∃ core', Reaches L lines start ⟨core', k'⟩ ∧ NewText core core' s ∧ core'.get .sp = core.get .sp - 4 ∧
      core'.loadWord (core'.get .sp) = core.get .hp := by
  rw [stringCode, List.append_assoc, List.cons_append, List.singleton_append] at hc
  obtain ⟨i, hg, -, hc⟩ := hg.comment hc
  obtain ⟨hmv, hc⟩ := codeAt_instruction.mp hc
  obtain ⟨j, hpush, hwords⟩ := codeAt_append.mp hc
  have hsp := (core.get .sp).isLt
  let core₁ := ((core.set .t0 (core.get .hp)).set .sp (core.get .sp - 4)).storeWord (core.get .sp - 4) (core.get .hp)
  have hg₀ : Reaches L lines start ⟨core.set .t0 (core.get .hp), i + 1⟩ := hg.step (step_instruction hmv rfl)
  have hg₁ := hg₀.push (by decide) hpush
  rw [Core.get_set_of_ne (by decide), Core.get_set (by decide)] at hg₁
  have hhp : core₁.get .hp = core.get .hp := Core.get_storeWord
  obtain ⟨core₂, hg₂, ⟨htext, hbelow, hpointer, haligned'⟩, habove, hregisters⟩ :=
    newText_of_words hended (by rwa [hhp]) (by rw [hhp]; omega) hwords hg₁
  rw [hhp] at htext hbelow hpointer
  have hsp₂ : core₂.get .sp = core.get .sp - 4 := hregisters .sp (by decide)
  refine ⟨core₂, hg₂, ⟨htext, fun a ha => ?_, hpointer, haligned'⟩, hsp₂, ?_⟩
  · rw [hbelow a ha, Core.memory_storeWord (by bv_omega)]
    rfl
  · rw [hsp₂]
    have hpushed : core₁.loadWord (core.get .sp - 4) = core.get .hp := Core.loadWord_storeWord
    rw [← hpushed]
    apply Core.loadWord_of_bytes
    intro x hx
    apply habove
    rw [hpointer]
    bv_omega

/-! Operations on texts -/

/--
The code of string literals, and the routines on strings called at a line, compute what the evaluator does. Each new
text is where the pointer to the heap was, ended by a zero byte, and the pointer is at the next word behind it. No byte
below changes.
-/
structure ComputesTexts (L : Layout) (lines : List Line) (core : Core) : Prop where
  literal : ∀ {span : Span} {raw : String} {g g' : Lowering.State} {kind : SlotKind},
    lowerExpr (.literal span (.string raw)) g = .ok kind g' →
    ∃ s c, Value.ofLiteral (.string raw) = .ok (.text s) ∧ g'.assembler = g.assembler.write c ∧
      ∀ {k k' : Nat}, CodeAt lines k c k' → '\x00' ∉ s.toList →
        (core.get .hp).toNat + textSize s + 4 ≤ (core.get .sp).toNat →
        ∃ core', Reaches L lines ⟨core, k⟩ ⟨core', k'⟩ ∧ NewText core core' s ∧
          core'.get .sp = core.get .sp - 4 ∧ core'.loadWord (core'.get .sp) = core.get .hp
  appended : ∀ {m : Nat} {s t : String}, lines[m]? = some (.jal Routine.concatString.label) → m + 1 < lines.length →
    TextAt core (core.get .a0) s → TextAt core (core.get .a1) t →
    (core.get .hp).toNat + textSize (s ++ t) < 2 ^ 32 →
    ∃ u core', Value.binary .add (.text s) (.text t) = .ok (.text u) ∧
      Reaches L lines ⟨core, m⟩ ⟨core', m + 1⟩ ∧ Returned core core' u ∧ u = s ++ t
  upper : ∀ {m : Nat} {s : String}, lines[m]? = some (.jal Routine.toUpperCase.label) → m + 1 < lines.length →
    TextAt core (core.get .a0) s → (core.get .hp).toNat + textSize s < 2 ^ 32 →
    ∃ u core', Embedded.apply .toUpperCase [.text s] = .ok (.text u) ∧
      Reaches L lines ⟨core, m⟩ ⟨core', m + 1⟩ ∧ Returned core core' u ∧ bytes u = (bytes s).map (shiftByte 97 122 224)
  lower : ∀ {m : Nat} {s : String}, lines[m]? = some (.jal Routine.toLowerCase.label) → m + 1 < lines.length →
    TextAt core (core.get .a0) s → (core.get .hp).toNat + textSize s < 2 ^ 32 →
    ∃ u core', Embedded.apply .toLowerCase [.text s] = .ok (.text u) ∧
      Reaches L lines ⟨core, m⟩ ⟨core', m + 1⟩ ∧ Returned core core' u ∧ bytes u = (bytes s).map (shiftByte 65 90 32)
  compared : ∀ {m : Nat} {s t : String}, lines[m]? = some (.jal Routine.strEquals.label) → m + 1 < lines.length →
    TextAt core (core.get .a0) s → TextAt core (core.get .a1) t →
    ∃ b core', Value.binary .eq (.text s) (.text t) = .ok (.bool b) ∧
      Reaches L lines ⟨core, m⟩ ⟨core', m + 1⟩ ∧ Compared core core' b ∧ (b = true ↔ s = t) ∧
      core'.get .hp = core.get .hp

theorem stringRoutines_compute (hlinked : Linked L lines) (haligned : (core.get .hp).toNat % 4 = 0) :
    ComputesTexts L lines core := by
  refine ⟨?_, ?_, ?_, ?_, ?_⟩
  · intro span raw g g' kind h
    unfold lowerExpr at h
    obtain ⟨c, hcode, rfl⟩ := Lowering.literalCode_of_yields h
    cases hcode
    refine ⟨_, _, rfl, Lowering.State.assembler_write, fun hc hended hroom => ?_⟩
    exact pushed_of_stringCode hended haligned hroom hc (.refl _)
  · intro m s t hcall hlength hs ht hroom
    obtain ⟨core', hg, h⟩ := returned_concatString hlinked hcall hlength (.refl _) hs ht haligned hroom
    exact ⟨_, core', rfl, hg, h, rfl⟩
  · intro m s hcall hlength hs hroom
    have hbytes := bytes_toUpper s
    obtain ⟨core', hg, h⟩ := returned_of_mapCase rfl (mapsByte_toUpper hlinked.unique) hbytes shiftByte_toUpper_eq_zero
      hlinked hcall hlength (.refl _) hs haligned (by rwa [textSize, hbytes, List.length_map])
    exact ⟨_, core', rfl, hg, h, hbytes⟩
  · intro m s hcall hlength hs hroom
    have hbytes := bytes_toLower s
    obtain ⟨core', hg, h⟩ := returned_of_mapCase rfl (mapsByte_toLower hlinked.unique) hbytes shiftByte_toLower_eq_zero
      hlinked hcall hlength (.refl _) hs haligned (by rwa [textSize, hbytes, List.length_map])
    exact ⟨_, core', rfl, hg, h, hbytes⟩
  · intro m s t hcall hlength hs ht
    obtain ⟨core', hg, h⟩ := compared_strEquals hlinked hcall hlength (.refl _) hs ht
    exact ⟨_, core', rfl, hg, h, by simp, h.registers .hp (by decide)⟩

end Routines

def appendingCode : List Line :=
  [.jal Routine.concatString.label, .j (.named "end")] ++ Routine.concatString.lines

def appendingCore : Core where
  registers r :=
    match r with
    | .a0 => (Layout.usual appendingCode).data FixedString.trueText.label
    | .a1 => (Layout.usual appendingCode).data FixedString.falseText.label
    | .hp => 0x10040000
    | .sp => 0x7fffeffc
    | _ => 0
  memory := usualMemory
  output := []

theorem stringRoutines_compute_trueFalse : Linked (.usual appendingCode) appendingCode ∧
    (appendingCore.get .hp).toNat % 4 = 0 ∧
    ∃ core', Reaches (.usual appendingCode) appendingCode ⟨appendingCore, 0⟩ ⟨core', 1⟩ ∧
      Returned appendingCore core' "truefalse" := by
  have hlinked : Linked (.usual appendingCode) appendingCode :=
    linked_usual (by decide +kernel) (by decide +kernel) (by decide +kernel)
  have htrue : TextAt appendingCore (appendingCore.get .a0) "true" :=
    ⟨by decide +kernel, by decide +kernel, by decide +kernel⟩
  have hfalse : TextAt appendingCore (appendingCore.get .a1) "false" :=
    ⟨by decide +kernel, by decide +kernel, by decide +kernel⟩
  have haligned : (appendingCore.get .hp).toNat % 4 = 0 := by decide +kernel
  have hcomputes := stringRoutines_compute hlinked haligned
  obtain ⟨_, core', -, hg, h, rfl⟩ := @hcomputes.appended 0 _ _ rfl (by decide +kernel) htrue hfalse (by decide +kernel)
  exact ⟨hlinked, haligned, core', hg, h⟩

end Arbor.Machine
