import Arbor.Proofs.Machine.Footprint

/-!
This module contains what is written to the heap for the digits of a number: they are appended from the last one to the
first one, and then reversed in place.
-/

namespace Arbor.Machine

open Assembly Lowering

def digitLines (value : Register) : List Line :=
  [.remu .t1 value .t3, .divu value value .t3, .addi .t1 .t1 48, .sb .t1 0 .hp]

def swapLines : List Line :=
  [.lb .t1 0 .t2, .lb .t4 0 .t3, .sb .t4 0 .t2, .sb .t1 0 .t3, .addi .t2 .t2 1, .addi .t3 .t3 (-1)]

def startLines : List Line :=
  [.mv .t2 .hp, .li .t3 10, .comment "unsigned, so a negated INT_MIN still reads as 2147483648"]

def digitLoop (value : Register) (t : Label) : List Line :=
  .label t :: (digitLines value ++ [.addi .hp .hp 1, .bnez value t])

def lastLines : List Line :=
  [.comment "digits were written least significant first", .addi .t3 .hp (-1)]

def reverseLoop (t t' : Label) : List Line :=
  .label t :: .bge .t2 .t3 t' :: (swapLines ++ [.j t, .label t'])

theorem appendDigits_eq (r : Routine) (value : Register) : Routine.appendDigits r value =
    startLines ++ digitLoop value (r.place "digits") ++ lastLines ++
      reverseLoop (r.place "reverse") (r.place "reversed") :=
  rfl

structure Swapping (lo hi : Nat) (s : FloatCore) : Prop where
  le : lo ≤ (s.get .t2).toNat
  lt : (s.get .t3).toNat < hi
  ordered : (s.get .t2).slt (s.get .t3) = true → (s.get .t2).toNat < (s.get .t3).toNat

theorem slt_iff {a b : Word} : a.slt b = true ↔
    (a.toNat < b.toNat ∧ (a.toNat < 2 ^ 31 ↔ b.toNat < 2 ^ 31)) ∨ (2 ^ 31 ≤ a.toNat ∧ b.toNat < 2 ^ 31) := by
  rw [BitVec.slt_iff_toInt_lt, BitVec.toInt_eq_toNat_cond, BitVec.toInt_eq_toNat_cond]
  have := a.isLt
  have := b.isLt
  split <;> split <;> omega

section Digits

variable {u : FloatUnit} {L : Layout} {lines : List Line} {top n k k' : Nat} {s₀ s s' : FloatCore}
  {Q : FloatHart → Prop} {r : Routine} {value : Register}

theorem grown_swapLines (hs : Grown scratch top s₀ s) (hswap : Swapping s₀.heapTop top s)
    (hlt : (s.get .t2).slt (s.get .t3) = true) (hrun : runFloatLines u L s swapLines = some s') :
    Grown scratch top s₀ s' ∧ s'.get .t2 = s.get .t2 + 1 ∧ s'.get .t3 = s.get .t3 - 1 := by
  have hle := hswap.le
  have hend := hswap.lt
  have hordered := hswap.ordered hlt
  have hzero (w : Word) : w + BitVec.ofInt 32 0 = w := BitVec.add_zero w
  let s₁ := s.set .t1 ((s.core.memory (s.get .t2 + BitVec.ofInt 32 0)).signExtend 32)
  let s₂ := s₁.set .t4 ((s₁.core.memory (s₁.get .t3 + BitVec.ofInt 32 0)).signExtend 32)
  let s₃ := s₂.storeByte (s.get .t2 + BitVec.ofInt 32 0) ((s₂.get .t4).setWidth 8)
  let s₄ := s₃.storeByte (s.get .t3 + BitVec.ofInt 32 0) ((s₃.get .t1).setWidth 8)
  let s₅ := s₄.set .t2 (s.get .t2 + BitVec.ofInt 32 1)
  have hlines : runFloatLines u L s swapLines = some (s₅.set .t3 (s.get .t3 + BitVec.ofInt 32 (-1))) := rfl
  rw [hlines] at hrun
  cases hrun
  have hlast : s.get .t3 + BitVec.ofInt 32 (-1) = s.get .t3 - 1 := by
    rw [BitVec.sub_eq_add_neg]
    rfl
  refine ⟨?_, rfl, hlast⟩
  have hhp : .hp ∉ scratch := by decide
  have h₂ : Grown scratch top s₀ s₂ := (hs.set (by decide) hhp).set (by decide) hhp
  have h₃ : Grown scratch top s₀ s₃ := by
    apply h₂.storeByte <;> rw [hzero]
    · exact hle
    · exact Nat.lt_trans hordered hend
  have h₄ : Grown scratch top s₀ s₄ := by
    apply h₃.storeByte <;> rw [hzero]
    · exact Nat.le_trans hle (Nat.le_of_lt hordered)
    · exact hend
  exact (h₄.set (by decide) hhp).set (by decide) hhp

theorem Swapping.next {lo hi : Nat} (hs : Swapping lo hi s) (hlt : (s.get .t2).slt (s.get .t3) = true)
    (h₂ : s'.get .t2 = s.get .t2 + 1) (h₃ : s'.get .t3 = s.get .t3 - 1) : Swapping lo hi s' := by
  have hle := hs.le
  have hend := hs.lt
  have hordered := hs.ordered hlt
  rw [slt_iff] at hlt
  have hfirst : (s'.get .t2).toNat = (s.get .t2).toNat + 1 := by
    rw [h₂]
    bv_omega
  have hlast : (s'.get .t3).toNat = (s.get .t3).toNat - 1 := by
    rw [h₃]
    bv_omega
  -- The next two digits are between these two, so in the same half of the memory.
  refine ⟨by omega, by omega, fun hlt' => ?_⟩
  rw [slt_iff] at hlt'
  omega

theorem Ensures.digits (htop : top + 4 ≤ 2 ^ 32) (hunique : ∀ l, labelCount l lines ≤ 1)
    (hvalue : value = .a0 ∨ value = .t5) {t : Label} (hlabel : lines[k]? = some (.label t))
    (hc : CodeAt lines (k + 1) (digitLines value ++ [.addi .hp .hp 1, .bnez value t]) k')
    (hs : Grown scratch top s₀ s) (hstart : s.get .t2 = s₀.get .hp)
    (h : ∀ s', Grown scratch top s₀ s' → s'.get .t2 = s₀.get .hp → s₀.heapTop < s'.heapTop → s'.heapTop ≤ top →
      Ensures u L lines (HasRoom lines top) n ⟨s', k'⟩ Q) :
    Ensures u L lines (HasRoom lines top) n ⟨s, k⟩ Q := by
  induction n generalizing s with
  | zero => exact .zero
  | succ n ih =>
    obtain ⟨k₁, hdigit, hrest⟩ := codeAt_append.mp hc
    simp only [codeAt_instruction, codeAt_nil] at hrest
    obtain ⟨hmove, hbranch, rfl⟩ := hrest
    have hrs : .hp ∉ [.t1, value] ∧ .t2 ∉ Register.hp :: [.t1, value] ∧ [.t1, value] ⊆ scratch ∧
        (digitLines value).all (grows [.t1, value]) = true ∧ isContained (digitLines value) = true ∧
        .ret ∉ digitLines value := by
      rcases hvalue with rfl | rfl <;> decide
    obtain ⟨hhp, ht2, hsubset, hgrows, hcontained, hret⟩ := hrs
    -- No round changes `t2`, and each leaves the heap pointer beyond it.
    apply Ensures.loop hlabel
    apply Ensures.growing hhp htop hunique hdigit hgrows hcontained hret
    intro s₁ hs₁
    have hstart₂ (w : Word) : (s₁.set .hp w).get .t2 = s₀.get .hp := by
      rw [FloatCore.get_set_of_ne (by decide), hs₁.registers _ ht2, hstart]
    apply Ensures.of_ok
    intro hroom
    have hpointer : s₁.heapTop ≤ top := hroom.pointer (by simp [hmove])
    let w := s₁.get .hp + BitVec.ofInt 32 1
    have hw : w.toNat = s₁.heapTop + 1 := FloatCore.toNat_hp_add 1 (by omega)
    apply Ensures.line hmove (show runFloatLine u L s₁ (.addi .hp .hp 1) = some (s₁.set .hp w) from rfl)
    have hs₁ : Grown scratch top s₀ s₁ := hs.trans (hs₁.mono hsubset (Nat.le_refl _))
    have hs₂ : Grown scratch top s₀ (s₁.set .hp w) := hs₁.move (by have := hs₁.pointer; omega)
    apply Ensures.of_ok
    intro hroom
    have hpointer₂ : (s₁.set .hp w).heapTop ≤ top := hroom.pointer (by simp [hbranch])
    apply Ensures.fork hbranch rfl (target?_eq hlabel (hunique t))
    · exact ih hs₂ (hstart₂ w) fun s' hs' hstart' hlt hle => (h s' hs' hstart' hlt hle).fewer (Nat.le_succ n)
    · apply Ensures.fewer _ (Nat.le_succ n)
      have hheap : (s₁.set .hp w).heapTop = s₁.heapTop + 1 := by rw [FloatCore.heapTop_set, hw]
      have := hs₁.pointer
      exact h _ hs₂ (hstart₂ w) (by omega) hpointer₂

theorem Ensures.reversal (hunique : ∀ l, labelCount l lines ≤ 1) {t t' : Label}
    (hlabel : lines[k]? = some (.label t)) (hbranch : lines[k + 1]? = some (.bge .t2 .t3 t'))
    (hc : CodeAt lines (k + 2) (swapLines ++ [.j t, .label t']) k')
    (hs : Grown scratch top s₀ s) (hswap : Swapping s₀.heapTop top s)
    (h : ∀ s', Grown scratch top s₀ s' → Ensures u L lines (HasRoom lines top) n ⟨s', k'⟩ Q) :
    Ensures u L lines (HasRoom lines top) n ⟨s, k⟩ Q := by
  induction n generalizing s with
  | zero => exact .zero
  | succ n ih =>
    obtain ⟨k₁, hlines, hrest⟩ := codeAt_append.mp hc
    simp only [codeAt_instruction, codeAt_label, codeAt_nil] at hrest
    obtain ⟨hjump, hdone, rfl⟩ := hrest
    apply Ensures.loop hlabel
    apply Ensures.branch hbranch (target?_eq hdone (hunique t'))
    · intro _
      apply Ensures.line hdone rfl
      exact (h s hs).fewer (Nat.le_succ n)
    · intro hlt
      have hlt : (s.get .t2).slt (s.get .t3) = true := by simpa [branchTaken] using hlt
      obtain ⟨s₁, hrun⟩ : ∃ s₁, runFloatLines u L s swapLines = some s₁ := ⟨_, rfl⟩
      obtain ⟨hs₁, h₂, h₃⟩ := grown_swapLines hs hswap hlt hrun
      apply Ensures.straight hlines hrun
      apply Ensures.jump hjump (target?_eq hlabel (hunique t))
      exact ih hs₁ (hswap.next hlt h₂ h₃) fun s' hs' => (h s' hs').fewer (Nat.le_succ n)

theorem Ensures.decimal (htop : top + 4 ≤ 2 ^ 32) (hunique : ∀ l, labelCount l lines ≤ 1)
    (hvalue : value = .a0 ∨ value = .t5) (hc : CodeAt lines k (Routine.appendDigits r value) k')
    (h : ∀ s', Grown scratch top s s' → Ensures u L lines (HasRoom lines top) n ⟨s', k'⟩ Q) :
    Ensures u L lines (HasRoom lines top) n ⟨s, k⟩ Q := by
  rw [appendDigits_eq] at hc
  obtain ⟨k₃, hc, hreverse⟩ := codeAt_append.mp hc
  obtain ⟨k₂, hc, hlast⟩ := codeAt_append.mp hc
  obtain ⟨k₁, hstart, hdigits⟩ := codeAt_append.mp hc
  obtain ⟨hdigitsLabel, hdigits⟩ := codeAt_label.mp hdigits
  obtain ⟨hreverseLabel, hreverse⟩ := codeAt_label.mp hreverse
  obtain ⟨hbranch, hreverse⟩ := codeAt_instruction.mp hreverse
  let s₁ := (s.set .t2 (s.get .hp)).set .t3 (.ofInt 32 10)
  have hhp : .hp ∉ scratch := by decide
  have hs₁ : Grown scratch top s s₁ := (Grown.refl.set (by decide) hhp).set (by decide) hhp
  apply Ensures.straight hstart (show runFloatLines u L s _ = some s₁ from rfl)
  apply Ensures.digits htop hunique hvalue hdigitsLabel hdigits hs₁ rfl
  intro s₂ hs₂ hstart₂ hlt hle
  let s₃ := s₂.set .t3 (s₂.get .hp + BitVec.ofInt 32 (-1))
  have hs₃ : Grown scratch top s s₃ := hs₂.set (by decide) hhp
  apply Ensures.straight hlast (show runFloatLines u L s₂ _ = some s₃ from rfl)
  apply Ensures.reversal hunique hreverseLabel hbranch hreverse hs₃ _ h
  have hfirst : (s₃.get .t2).toNat = s.heapTop := congrArg BitVec.toNat hstart₂
  have hlast : (s₃.get .t3).toNat = s₂.heapTop - 1 := by
    change (s₂.get .hp + -1).toNat = (s₂.get .hp).toNat - 1
    have : 0 < (s₂.get .hp).toNat := Nat.zero_lt_of_lt hlt
    bv_omega
  -- If the digits lie across the middle of the memory, the loop stops at once.
  refine ⟨Nat.le_of_eq hfirst.symm, by omega, fun hslt => ?_⟩
  rw [slt_iff] at hslt
  omega

end Digits

end Arbor.Machine
