import Arbor.Proofs.Machine.Calls
import Arbor.Proofs.Machine.Memory

/-!
This module contains what lines of routines leave as it was: all registers but some, and the memory outside the part of
the heap that the heap pointer moves over.
-/

namespace Arbor.Machine

open Assembly Lowering

namespace FloatCore

variable {s : FloatCore} {r r' : Register} {w : Word}

theorem get_set (hr : r ≠ .zero) : (s.set r w).get r = w :=
  Core.get_set hr

theorem get_set_of_ne (h : r' ≠ r) : (s.set r w).get r' = s.get r' :=
  Core.get_set_of_ne h

theorem set_set {v : Word} : (s.set r v).set r w = s.set r w :=
  congrArg (FloatCore.mk · s.floats) Core.set_set

def storeByte (s : FloatCore) (a : Word) (b : BitVec 8) : FloatCore :=
  { s with core := s.core.storeByte a b }

@[simp]
theorem get_storeByte {a : Word} {b : BitVec 8} : (s.storeByte a b).get r = s.get r :=
  Core.get_storeByte

theorem memory_storeByte {a x : Word} {b : BitVec 8} (h : x ≠ a) :
    (s.storeByte a b).core.memory x = s.core.memory x :=
  if_neg h

def heapTop (s : FloatCore) : Nat :=
  (s.get .hp).toNat

theorem toNat_hp_add (i : Nat) (h : s.heapTop + i < 2 ^ 32) :
    (s.get .hp + BitVec.ofInt 32 i).toNat = s.heapTop + i := by
  rw [BitVec.ofInt_natCast, BitVec.toNat_add, BitVec.toNat_ofNat]
  change (s.heapTop + i % 2 ^ 32) % 2 ^ 32 = _
  omega

theorem heapTop_set : (s.set .hp w).heapTop = w.toNat :=
  congrArg BitVec.toNat (get_set (by decide))

theorem heapTop_set_of_ne (hr : .hp ≠ r) : (s.set r w).heapTop = s.heapTop :=
  congrArg BitVec.toNat (get_set_of_ne hr)

@[simp]
theorem heapTop_storeByte {a : Word} {b : BitVec 8} : (s.storeByte a b).heapTop = s.heapTop :=
  congrArg BitVec.toNat get_storeByte

end FloatCore

def scratch : List Register :=
  [.t0, .t1, .t2, .t3, .t4, .t5, .a0, .a1, .a2, .a7]

structure Changes (rs : List Register) (s s' : FloatCore) : Prop where
  registers : ∀ r, r ∉ rs → s'.get r = s.get r
  memory : s'.core.memory = s.core.memory

/--
No registers have changed but the heap pointer, which has not moved back, and some others. The memory has not changed
below where the heap pointer was, nor from an address on.
-/
structure Grown (rs : List Register) (top : Nat) (s s' : FloatCore) : Prop where
  registers : ∀ r, r ∉ Register.hp :: rs → s'.get r = s.get r
  memory : ∀ a : Word, a.toNat < s.heapTop ∨ top ≤ a.toNat → s'.core.memory a = s.core.memory a
  pointer : s.heapTop ≤ s'.heapTop

/--
There is room for what is written to the heap: the bytes that are stored at the heap pointer are below an address, and
the heap pointer does not get beyond the address, unless it is being rounded.
-/
structure HasRoom (lines : List Line) (top : Nat) (m : FloatHart) : Prop where
  bytes : ∀ r (offset : Nat), lines[m.pc]? = some (.sb r offset .hp) → m.state.heapTop + offset < top
  pointer : lines[m.pc]? ≠ some (.andi .hp .hp (-4)) → m.state.heapTop ≤ top

def onlyChanges (rs : List Register) : Line → Bool
  | .instruction i =>
    match i with
    | .register _ rd .. | .immediate _ rd .. | .move _ rd _ | .li rd _ | .la rd _ | .load _ rd .. |
      .floatCompare _ rd .. | .bitsOfFloat rd _ | .intOfFloat rd _ => rs.contains rd
    | .store .. | .jal _ => false
    | _ => true
  | _ => true

/--
A line that writes at the heap pointer, moves it to the next byte, or changes no more than some other registers.
-/
def grows (rs : List Register) : Line → Bool
  | .sb _ offset .hp => 0 ≤ offset
  | .addi .hp .hp 1 => true
  | l => onlyChanges rs l

def isContained (c : List Line) : Bool :=
  c.all fun l => l.target?.all fun t => c.contains (.label t)

namespace Changes

variable {rs rs' : List Register} {s s' s'' : FloatCore}

theorem refl : Changes rs s s :=
  ⟨fun _ _ => rfl, rfl⟩

theorem trans (h : Changes rs s s') (h' : Changes rs s' s'') : Changes rs s s'' :=
  ⟨fun r hr => (h'.registers r hr).trans (h.registers r hr), h'.memory.trans h.memory⟩

theorem set {rd : Register} {w : Word} (hrd : rd ∈ rs) : Changes rs s (s.set rd w) :=
  ⟨fun _ hr => FloatCore.get_set_of_ne fun heq => hr (heq ▸ hrd), rfl⟩

theorem heapTop_eq (h : Changes rs s s') (hrs : .hp ∉ rs) : s'.heapTop = s.heapTop :=
  congrArg BitVec.toNat (h.registers _ hrs)

theorem grown {top : Nat} (h : Changes rs s s') (hrs : .hp ∉ rs) : Grown rs top s s' :=
  ⟨fun r hr => h.registers r fun hmem => hr (List.mem_cons_of_mem _ hmem), fun _ _ => congrFun h.memory _,
    Nat.le_of_eq (h.heapTop_eq hrs).symm⟩

end Changes

namespace Grown

variable {rs rs' : List Register} {s s' s'' : FloatCore} {top : Nat}

theorem refl : Grown rs top s s :=
  ⟨fun _ _ => rfl, fun _ _ => rfl, Nat.le_refl _⟩

theorem trans (h : Grown rs top s s') (h' : Grown rs top s' s'') : Grown rs top s s'' where
  registers r hr := (h'.registers r hr).trans (h.registers r hr)
  memory a ha := by
    refine (h'.memory a ?_).trans (h.memory a ha)
    rcases ha with ha | ha
    · exact .inl (Nat.lt_of_lt_of_le ha h.pointer)
    · exact .inr ha
  pointer := Nat.le_trans h.pointer h'.pointer

theorem mono {top' : Nat} (h : Grown rs top s s') (hrs : rs ⊆ rs') (htop : top ≤ top') : Grown rs' top' s s' :=
  ⟨fun r hr => h.registers r fun hmem => hr (List.cons_subset_cons _ hrs hmem),
    fun a ha => h.memory a (ha.imp_right (Nat.le_trans htop)), h.pointer⟩

theorem move {w : Word} (h : Grown rs top s s') (hw : s.heapTop ≤ w.toNat) : Grown rs top s (s'.set .hp w) where
  registers r hr := (FloatCore.get_set_of_ne (List.ne_of_not_mem_cons hr)).trans (h.registers r hr)
  memory := h.memory
  pointer := by rwa [FloatCore.heapTop_set]

theorem set {rd : Register} {w : Word} (h : Grown rs top s s') (hrd : rd ∈ rs) (hrs : .hp ∉ rs) :
    Grown rs top s (s'.set rd w) :=
  h.trans ((Changes.set hrd).grown hrs)

theorem storeByte {a : Word} {b : BitVec 8} (h : Grown rs top s s') (hlo : s.heapTop ≤ a.toNat) (hhi : a.toNat < top) :
    Grown rs top s (s'.storeByte a b) where
  registers r hr := FloatCore.get_storeByte.trans (h.registers r hr)
  memory x hx := (FloatCore.memory_storeByte (by rintro rfl; omega)).trans (h.memory x hx)
  pointer := by simpa using h.pointer

end Grown

/-! Lines -/

section Lines

variable {u : FloatUnit} {L : Layout} {lines c : List Line} {rs : List Register} {top n k k' : Nat} {l : Line}
  {s s' : FloatCore} {ok : FloatHart → Prop} {Q : FloatHart → Prop}

theorem exists_write_of_service {c c' : Core} (h : service c = some c') : ∃ xs, c' = c.write xs := by
  unfold service at h
  split at h
  · cases h
    exact ⟨_, rfl⟩
  · cases h
    exact ⟨_, rfl⟩
  · cases h
    exact ⟨_, rfl⟩
  · cases h

theorem changes_of_onlyChanges (hl : onlyChanges rs l = true) (hrun : runFloatLine u L s l = some s') :
    Changes rs s s' := by
  have hwrite (xs : List UInt8) : Changes rs s { s with core := s.core.write xs } :=
    ⟨fun _ _ => Core.get_write, rfl⟩
  cases l with
  | label | comment =>
    cases hrun
    exact .refl
  | instruction i =>
    cases i with
    | register | immediate | move | li | la | bitsOfFloat | intOfFloat | floatCompare =>
      cases hrun
      exact .set (by simpa [onlyChanges] using hl)
    | load width =>
      cases width <;> cases hrun <;> exact .set (by simpa [onlyChanges] using hl)
    | float | floatMove | floatOfBits | floatOfInt =>
      cases hrun
      exact ⟨fun _ _ => rfl, rfl⟩
    | ecall =>
      unfold runFloatLine at hrun
      rcases Option.or_eq_some_iff.mp hrun with hrun | ⟨-, hrun⟩
      · simp only [floatEffect] at hrun
        split at hrun
        · cases hrun
          exact hwrite _
        · cases hrun
      · obtain ⟨core, hcore, rfl⟩ := Option.map_eq_some_iff.mp hrun
        obtain ⟨xs, rfl⟩ := exists_write_of_service hcore
        exact hwrite xs
    | store | jal => cases hl
    | branch | branchZero | j | ret => cases hrun

theorem grown_of_grows (hrs : .hp ∉ rs) (htop : top + 4 ≤ 2 ^ 32) (hl : grows rs l = true)
    (hline : lines[k]? = some l) (hroom : HasRoom lines top ⟨s, k⟩) (hrun : runFloatLine u L s l = some s') :
    Grown rs top s s' := by
  unfold grows at hl
  split at hl
  · next offset =>
    -- The address does not wrap around, since there is room for the byte below `top`.
    obtain ⟨i, rfl⟩ := Int.eq_ofNat_of_zero_le (by simpa using hl)
    have hbyte := hroom.bytes _ i hline
    dsimp only at hbyte
    cases hrun
    have haddress := FloatCore.toNat_hp_add (s := s) i (by omega)
    apply Grown.refl.storeByte
    · exact haddress ▸ Nat.le_add_right _ _
    · exact haddress ▸ hbyte
  · have hpointer := hroom.pointer (by simp [hline])
    dsimp only at hpointer
    cases hrun
    apply Grown.refl.move
    exact FloatCore.toNat_hp_add (s := s) 1 (by omega) ▸ Nat.le_add_right _ _
  · exact (changes_of_onlyChanges hl hrun).grown hrs

theorem jumps_of_isContained (h : isContained c = true) :
    ∀ l ∈ c, ∀ t, l.target? = some t → .label t ∈ c := by
  intro l hl t ht
  have hl := List.all_eq_true.mp h l hl
  rw [ht] at hl
  simpa using hl

theorem Keeps.grown (hrs : .hp ∉ rs) (htop : top + 4 ≤ 2 ^ 32) (hgrows : c.all (grows rs) = true)
    (hcontained : isContained c = true) : Keeps u L lines (HasRoom lines top) (Grown rs top s) c where
  jumps := jumps_of_isContained hcontained
  line l hl _ _ _ hline hok hs hrun :=
    hs.trans (grown_of_grows hrs htop (List.all_eq_true.mp hgrows l hl) hline hok hrun)
  call _ ht := absurd (List.all_eq_true.mp hgrows _ ht) Bool.false_ne_true

/-! Rules -/

theorem Ensures.growing (hrs : .hp ∉ rs) (htop : top + 4 ≤ 2 ^ 32) (hunique : ∀ l, labelCount l lines ≤ 1)
    (hc : CodeAt lines k c k') (hgrows : c.all (grows rs) = true) (hcontained : isContained c = true)
    (hret : .ret ∉ c)
    (h : ∀ s', Grown rs top s s' → Ensures u L lines (HasRoom lines top) n ⟨s', k'⟩ Q) :
    Ensures u L lines (HasRoom lines top) n ⟨s, k⟩ Q :=
  (Keeps.grown hrs htop hgrows hcontained).region hunique hc
    (fun _ ht => absurd (List.all_eq_true.mp hgrows _ ht) Bool.false_ne_true) (fun hmem => absurd hmem hret) h .refl
    (Nat.le_refl k) hc.le

theorem toNat_and_four (w : Word) : (w &&& BitVec.ofInt 32 (-4)).toNat = w.toNat / 4 * 4 := by
  have hmask : BitVec.ofInt 32 (-4) = BitVec.ofNat 32 ((2 ^ 30 - 1) <<< 2) := by decide
  have hdiv : w.toNat / 4 * 4 = (w.toNat >>> 2) <<< 2 := by
    rw [Nat.shiftLeft_eq, Nat.shiftRight_eq_div_pow]
  rw [hmask, BitVec.toNat_and, BitVec.toNat_ofNat, Nat.mod_eq_of_lt (by decide), hdiv]
  apply Nat.eq_of_testBit_eq
  intro i
  rw [Nat.testBit_and, Nat.testBit_shiftLeft, Nat.testBit_shiftLeft, Nat.testBit_shiftRight,
    Nat.testBit_two_pow_sub_one]
  by_cases hi : 2 ≤ i
  · have hindex : 2 + (i - 2) = i := by omega
    by_cases hbound : i - 2 < 30
    · simp [hi, hindex, hbound]
    · have hzero : w.toNat.testBit i = false := by
        apply Nat.testBit_lt_two_pow
        exact Nat.lt_of_lt_of_le w.isLt (Nat.pow_le_pow_right (by decide) (by omega))
      simp [hi, hindex, hbound, hzero]
  · simp [hi]

theorem Ensures.align (htop : top + 4 ≤ 2 ^ 32) (hc : CodeAt lines k alignHeap k')
    (h : ∀ s', Grown rs top s s' → s'.heapTop % 4 = 0 → Ensures u L lines (HasRoom lines top) n ⟨s', k'⟩ Q) :
    Ensures u L lines (HasRoom lines top) n ⟨s, k⟩ Q := by
  apply Ensures.of_ok
  intro hroom
  obtain ⟨hline, -⟩ := codeAt_instruction.mp hc
  have hpointer : s.heapTop ≤ top := hroom.pointer (by simp [hline])
  let w := s.get .hp + BitVec.ofInt 32 3
  have hw : w.toNat = s.heapTop + 3 := FloatCore.toNat_hp_add 3 (by omega)
  let w' := (s.set .hp w).get .hp &&& BitVec.ofInt 32 (-4)
  have hw' : w'.toNat = (s.heapTop + 3) / 4 * 4 := by
    change ((s.set .hp w).get .hp &&& _).toNat = _
    rw [FloatCore.get_set (by decide), toNat_and_four, hw]
  apply Ensures.straight hc (show runFloatLines u L s alignHeap = some ((s.set .hp w).set .hp w') from rfl)
  rw [FloatCore.set_set]
  apply h
  · apply Grown.refl.move
    omega
  · rw [FloatCore.heapTop_set, hw']
    omega

theorem Ensures.finish (htop : top + 4 ≤ 2 ^ 32) (hunique : ∀ l, labelCount l lines ≤ 1) {start : Register}
    (hc : CodeAt lines k (finishString start) k')
    (h : ∀ s', Grown scratch top s s' → s'.heapTop % 4 = 0 → Ensures u L lines (HasRoom lines top) n ⟨s', k'⟩ Q) :
    Ensures u L lines (HasRoom lines top) n ⟨s, k⟩ Q := by
  have hsplit : finishString start = (appendByte .zero ++ [.mv .a0 start]) ++ alignHeap := rfl
  rw [hsplit, codeAt_append] at hc
  obtain ⟨k₁, hend, halign⟩ := hc
  apply growing (show .hp ∉ scratch by decide) htop hunique hend rfl rfl (by simp [appendByte])
  intro s₁ hs₁
  apply align htop halign
  intro s₂ hs₂
  exact h s₂ (hs₁.trans hs₂)

end Lines

end Arbor.Machine
