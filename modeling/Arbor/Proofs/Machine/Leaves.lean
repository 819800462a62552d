import Arbor.Proofs.Machine.Digits

/-!
This module contains the routines that call no others, and what they keep when they return.
-/

namespace Arbor.Machine

open Assembly Lowering

/--
A routine that was called has returned to where it was called from, with no registers changed but scratch registers
and the heap pointer. The heap pointer has not moved back and is at the start of a word, and the memory has not changed
below where it was, nor from an address on.
-/
structure Honours (L : Layout) (lines : List Line) (top : Nat) (s : FloatCore) (f : FloatHart) : Prop where
  returns : lineAt? L lines (s.get .ra) = some f.pc
  grown : Grown scratch top s f.state
  aligned : f.state.heapTop % 4 = 0

theorem hp_notMem_scratch : .hp ∉ scratch := by
  decide

section Leaves

variable {u : FloatUnit} {L : Layout} {lines c : List Line} {top n k k' : Nat} {s s' : FloatCore} {r : Routine}
  {start : Register}

/-! Returns -/

theorem Ensures.honours_ret {ok : FloatHart → Prop} (hline : lines[k]? = some .ret)
    (hs : Grown scratch top s s') (haligned : s'.heapTop % 4 = 0) :
    Ensures u L lines ok n ⟨s', k⟩ (Honours L lines top s) := by
  apply Ensures.ret hline
  intro k' hk'
  rw [hs.registers .ra (by decide)] at hk'
  exact ⟨hk', hs, haligned⟩

theorem codeAt_ret (hc : CodeAt lines k [.ret] k') : lines[k]? = some .ret :=
  (codeAt_instruction.mp hc).1

def quiet : List Routine :=
  [.strEquals, .boolToString, .parseInt, .parseFloat, .checkDivZero, .checkBounds, .printArray]

theorem quiet_lines : ∀ r ∈ quiet, (∀ l ∈ .label r.label :: r.body, onlyChanges scratch l = true) ∧
    isContained (.label r.label :: r.body) = true := by
  decide +kernel

theorem Ensures.honours_quiet (hunique : ∀ l, labelCount l lines ≤ 1) (hr : r ∈ quiet)
    (hc : CodeAt lines k r.lines k') (haligned : s.heapTop % 4 = 0) :
    Ensures u L lines (HasRoom lines top) n ⟨s, k⟩ (Honours L lines top s) := by
  have hc : CodeAt lines k ((.label r.label :: r.body) ++ [.ret]) k' := hc
  obtain ⟨k₁, hbody, hret⟩ := codeAt_append.mp hc
  obtain ⟨hquiet, hcontained⟩ := quiet_lines r hr
  have hkeeps : Keeps u L lines (HasRoom lines top) (Changes scratch s) (.label r.label :: r.body) :=
    { jumps := jumps_of_isContained hcontained
      line := fun l hl _ _ _ _ _ hs hrun => hs.trans (changes_of_onlyChanges (hquiet l hl) hrun)
      call := fun _ ht => absurd (hquiet _ ht) Bool.false_ne_true }
  have hgrown {s' : FloatCore} (hs' : Changes scratch s s') : Grown scratch top s s' ∧ s'.heapTop % 4 = 0 :=
    ⟨hs'.grown hp_notMem_scratch, by rwa [hs'.heapTop_eq hp_notMem_scratch]⟩
  apply hkeeps.region hunique hbody _ _ _ .refl (Nat.le_refl k) hbody.le
  · exact fun _ ht => absurd (hquiet _ ht) Bool.false_ne_true
  · intro _ s' k' hs' hk'
    rw [hs'.registers .ra (by decide)] at hk'
    exact ⟨hk', (hgrown hs').1, (hgrown hs').2⟩
  · intro s' hs'
    exact honours_ret (codeAt_ret hret) (hgrown hs').1 (hgrown hs').2

/-! Guards -/

theorem Ensures.fail {ok : FloatHart → Prop} {Q : FloatHart → Prop} {message : FixedString}
    (hc : CodeAt lines k (failWith message) k') : Ensures u L lines ok n ⟨s, k⟩ Q := by
  let print : List Line := [.la .a0 message.label, .li .a7 4, .ecall, .li .a0 1, .li .a7 93]
  have hlines : failWith message = print ++ [.ecall] := rfl
  rw [hlines] at hc
  obtain ⟨k₁, hmessage, hexit⟩ := codeAt_append.mp hc
  obtain ⟨s₁, hrun, ha7⟩ : ∃ s₁, runFloatLines u L s print = some s₁ ∧ s₁.get .a7 = 93 := ⟨_, rfl, rfl⟩
  apply straight hmessage hrun
  have hline := (codeAt_instruction.mp hexit).1
  apply advance hline (by simp) (by simp)
  intro m hnext
  have heffect : floatEffect u s₁ .ecall = none := if_neg (by rw [ha7]; decide)
  have hexited : step L lines ⟨s₁.core, k₁⟩ = .exited (s₁.core.get .a0) := by
    have ha7 : s₁.core.get .a7 = 93 := ha7
    unfold step
    simp [hline, ha7]
  rw [next?_eq_step hline heffect, hexited] at hnext
  cases hnext

def isIdle : Line → Bool
  | .label _ | .comment _ | .instruction (.branch ..) | .instruction (.branchZero ..) | .ret => true
  | _ => false

theorem eq_of_isIdle {l : Line} (hl : isIdle l = true) (hrun : runFloatLine u L s l = some s') : s' = s := by
  cases l with
  | label | comment =>
    cases hrun
    rfl
  | instruction i =>
    cases i with
    | branch | branchZero | ret => cases hrun
    | _ => cases hl

theorem Ensures.guard {ok : FloatHart → Prop} (hunique : ∀ l, labelCount l lines ≤ 1) {message : FixedString}
    (hlines : r.lines = c ++ (failWith message ++ [.ret])) (hidle : c.all isIdle = true)
    (hcontained : isContained c = true) (hc : CodeAt lines k r.lines k') :
    Ensures u L lines ok n ⟨s, k⟩ fun f => f.state = s := by
  rw [hlines] at hc
  obtain ⟨k₁, hguard, hc⟩ := codeAt_append.mp hc
  obtain ⟨k₂, hfail, -⟩ := codeAt_append.mp hc
  have hidle : ∀ l ∈ c, isIdle l = true := List.all_eq_true.mp hidle
  have hkeeps : Keeps u L lines ok (· = s) c :=
    { jumps := jumps_of_isContained hcontained
      line := fun l hl _ _ _ _ _ hs hrun => (eq_of_isIdle (hidle l hl) hrun).trans hs
      call := fun _ ht => absurd (hidle _ ht) Bool.false_ne_true }
  apply hkeeps.region hunique hguard _ _ _ rfl (Nat.le_refl k) hguard.le
  · exact fun _ ht => absurd (hidle _ ht) Bool.false_ne_true
  · rintro - s' k' rfl -
    rfl
  · exact fun s' _ => fail hfail

theorem Ensures.unchanged {ok : FloatHart → Prop} (hunique : ∀ l, labelCount l lines ≤ 1)
    (hr : r = .checkDivZero ∨ r = .checkBounds) (hc : CodeAt lines k r.lines k') :
    Ensures u L lines ok n ⟨s, k⟩ fun f => f.state = s := by
  rcases hr with rfl | rfl
  · have hlines : Routine.checkDivZero.lines =
        Routine.checkDivZero.lines.take 5 ++ (failWith .divisionByZero ++ [.ret]) := rfl
    exact guard hunique hlines (by decide) (by decide +kernel) hc
  · have hlines : Routine.checkBounds.lines =
        Routine.checkBounds.lines.take 6 ++ (failWith .outOfBounds ++ [.ret]) := rfl
    exact guard hunique hlines (by decide) (by decide +kernel) hc

/-! Strings on the heap -/

def copying : List Routine :=
  [.concatString, .toUpperCase, .toLowerCase]

def beforeFinish (r : Routine) : List Line :=
  r.lines.take (r.lines.length - (finishString .t0 ++ [Line.ret]).length)

theorem copying_lines : ∀ r ∈ copying, r.lines = beforeFinish r ++ (finishString .t0 ++ [.ret]) ∧
    (beforeFinish r).all (grows scratch) = true ∧ isContained (beforeFinish r) = true ∧
    Line.ret ∉ beforeFinish r := by
  decide +kernel

theorem Ensures.honours_charToString (htop : top + 4 ≤ 2 ^ 32) (hc : CodeAt lines k Routine.charToString.lines k')
    (haligned : s.heapTop % 4 = 0) :
    Ensures u L lines (HasRoom lines top) n ⟨s, k⟩ (Honours L lines top s) := by
  let char : List Line := [.label Routine.charToString.label, .mv .t0 .hp, .sb .a0 0 .hp]
  let rest : List Line := [.sb .zero 1 .hp, .addi .hp .hp 4, .mv .a0 .t0]
  have hlines : Routine.charToString.lines = char ++ (rest ++ [.ret]) := rfl
  rw [hlines] at hc
  obtain ⟨k₁, hchar, hc⟩ := codeAt_append.mp hc
  obtain ⟨k₂, hend, hret⟩ := codeAt_append.mp hc
  -- The heap pointer moves by a whole word, so it stays at the start of one without being rounded.
  let s₁ := (s.set .t0 (s.get .hp)).storeByte (s.get .hp + BitVec.ofInt 32 0) ((s.get .a0).setWidth 8)
  apply Ensures.straight hchar (show runFloatLines u L s _ = some s₁ from rfl)
  apply Ensures.of_ok
  intro hroom
  have hbyte : s.heapTop + 1 < top := hroom.bytes .zero 1 (codeAt_instruction.mp hend).1
  have hadd (i : Nat) (hi : i ≤ 4) : (s.get .hp + BitVec.ofInt 32 i).toNat = s.heapTop + i :=
    FloatCore.toNat_hp_add i (by omega)
  let s₂ := s₁.storeByte (s.get .hp + BitVec.ofInt 32 1) 0
  let s₃ := s₂.set .hp (s.get .hp + BitVec.ofInt 32 4)
  have hs₁ : Grown scratch top s s₁ := by
    apply (Grown.refl.set (by decide) hp_notMem_scratch).storeByte
    · exact hadd 0 (by decide) ▸ Nat.le_add_right _ _
    · exact hadd 0 (by decide) ▸ Nat.lt_of_succ_lt hbyte
  have hs₂ : Grown scratch top s s₂ := by
    apply hs₁.storeByte
    · exact hadd 1 (by decide) ▸ Nat.le_add_right _ _
    · exact hadd 1 (by decide) ▸ hbyte
  have hs₃ : Grown scratch top s s₃ := hs₂.move (hadd 4 (by decide) ▸ Nat.le_add_right _ _)
  apply Ensures.straight hend (show runFloatLines u L s₁ _ = some (s₃.set .a0 (s₃.get .t0)) from rfl)
  apply honours_ret (codeAt_ret hret) (hs₃.set (by decide) hp_notMem_scratch)
  have hheap : s₃.heapTop = s.heapTop + 4 := FloatCore.heapTop_set.trans (hadd 4 (by decide))
  change s₃.heapTop % 4 = 0
  omega

def fractionLines : List Line :=
  let next := Routine.floatToString.place "next"
  let trim := Routine.floatToString.place "trim"
  List.flatten [[.li .t1 (charCode '.')], appendByte .t1,
    [.li .t2 6, .li .t3 10, .floatOfInt .ft2 .t3,
      .label next, .beqz .t2 trim, .fmul .ft0 .ft0 .ft2, .intOfFloat .t1 .ft0,
      .floatOfInt .ft1 .t1, .fsub .ft0 .ft0 .ft1, .addi .t1 .t1 48],
    appendByte .t1,
    [.addi .t2 .t2 (-1), .li .t4 48, .beq .t1 .t4 next, .mv .t5 .hp, .j next, .label trim]]

theorem keeps_fractionLines (htop : top + 4 ≤ 2 ^ 32) : Keeps u L lines (HasRoom lines top)
    (fun s' => Grown scratch top s s' ∧ s.heapTop ≤ (s'.get .t5).toNat) fractionLines := by
  have hlines : ∀ l ∈ fractionLines, l = .mv .t5 .hp ∨ grows (scratch.erase .t5) l = true := by decide
  refine ⟨jumps_of_isContained (by decide +kernel), ?_, ?_⟩
  · rintro l hl k s₁ s₂ hline hok ⟨hs₁, hmark⟩ hrun
    rcases hlines l hl with rfl | hgrows
    · cases hrun
      exact ⟨hs₁.set (by decide) hp_notMem_scratch, hs₁.pointer⟩
    · have hs₂ := grown_of_grows (by decide) htop hgrows hline hok hrun
      refine ⟨hs₁.trans (hs₂.mono List.erase_subset (Nat.le_refl top)), ?_⟩
      rwa [hs₂.registers .t5 (by decide)]
  · intro t ht
    rcases hlines _ ht with heq | hgrows
    · cases heq
    · cases hgrows

variable (htop : top + 4 ≤ 2 ^ 32) (hunique : ∀ l, labelCount l lines ≤ 1)

include htop hunique

theorem Ensures.honours_finish (hc : CodeAt lines k (finishString start ++ [.ret]) k') (hs : Grown scratch top s s') :
    Ensures u L lines (HasRoom lines top) n ⟨s', k⟩ (Honours L lines top s) := by
  obtain ⟨k₁, hfinish, hret⟩ := codeAt_append.mp hc
  apply Ensures.finish htop hunique hfinish
  intro s₁ hs₁ haligned
  exact honours_ret (codeAt_ret hret) (hs.trans hs₁) haligned

theorem Ensures.honours_copying (hr : r ∈ copying) (hc : CodeAt lines k r.lines k') :
    Ensures u L lines (HasRoom lines top) n ⟨s, k⟩ (Honours L lines top s) := by
  obtain ⟨hlines, hgrows, hcontained, hret⟩ := copying_lines r hr
  rw [hlines] at hc
  obtain ⟨k₁, hcopy, hfinish⟩ := codeAt_append.mp hc
  apply Ensures.growing hp_notMem_scratch htop hunique hcopy hgrows hcontained hret
  intro s₁ hs₁
  exact honours_finish htop hunique hfinish hs₁

theorem Ensures.honours_intToString (hc : CodeAt lines k Routine.intToString.lines k') :
    Ensures u L lines (HasRoom lines top) n ⟨s, k⟩ (Honours L lines top s) := by
  let positive := Routine.intToString.place "positive"
  let sign : List Line := List.flatten [[.label Routine.intToString.label, .mv .t0 .hp, .bgez .a0 positive],
    Routine.appendMinus, [.neg .a0 .a0, .label positive]]
  have hlines : Routine.intToString.lines =
      sign ++ (Routine.appendDigits .intToString .a0 ++ (finishString .t0 ++ [.ret])) := rfl
  rw [hlines] at hc
  obtain ⟨k₁, hsign, hc⟩ := codeAt_append.mp hc
  obtain ⟨k₂, hdigits, hfinish⟩ := codeAt_append.mp hc
  apply Ensures.growing hp_notMem_scratch htop hunique hsign (by decide) (by decide +kernel) (by decide)
  intro s₁ hs₁
  apply Ensures.decimal htop hunique (.inl rfl) hdigits
  intro s₂ hs₂
  exact honours_finish htop hunique hfinish (hs₁.trans hs₂)

theorem Ensures.honours_floatToString (hc : CodeAt lines k Routine.floatToString.lines k') :
    Ensures u L lines (HasRoom lines top) n ⟨s, k⟩ (Honours L lines top s) := by
  let positive := Routine.floatToString.place "positive"
  let whole : List Line := List.flatten [[.label Routine.floatToString.label, .floatOfBits .ft0 .a0, .mv .t0 .hp,
      .bgez .a0 positive],
    Routine.appendMinus,
    [.fabs .ft0 .ft0, .label positive, .intOfFloat .t5 .ft0, .floatOfInt .ft1 .t5, .fsub .ft0 .ft0 .ft1]]
  let mark : List Line := [.comment "t5 marks the end of the last significant digit", .mv .t5 .hp]
  have hlines : Routine.floatToString.lines = whole ++ (Routine.appendDigits .floatToString .t5 ++
      (mark ++ (fractionLines ++ ([.mv .hp .t5] ++ (finishString .t0 ++ [.ret]))))) := rfl
  rw [hlines] at hc
  obtain ⟨k₁, hwhole, hc⟩ := codeAt_append.mp hc
  obtain ⟨k₂, hdigits, hc⟩ := codeAt_append.mp hc
  obtain ⟨k₃, hmark, hc⟩ := codeAt_append.mp hc
  obtain ⟨k₄, hfraction, hc⟩ := codeAt_append.mp hc
  obtain ⟨k₅, htrim, hfinish⟩ := codeAt_append.mp hc
  apply Ensures.growing hp_notMem_scratch htop hunique hwhole (by decide) (by decide +kernel) (by decide)
  intro s₁ hs₁
  apply Ensures.decimal htop hunique (.inr rfl) hdigits
  intro s₂ hs₂
  have hs₂ : Grown scratch top s s₂ := hs₁.trans hs₂
  apply Ensures.straight hmark (show runFloatLines u L s₂ mark = some (s₂.set .t5 (s₂.get .hp)) from rfl)
  have hs₃ : Grown scratch top s (s₂.set .t5 (s₂.get .hp)) := hs₂.set (by decide) hp_notMem_scratch
  apply (keeps_fractionLines htop).region hunique hfraction _ _ _ ⟨hs₃, hs₂.pointer⟩ (Nat.le_refl _) hfraction.le
  · exact fun t ht => absurd ht (by simp [fractionLines, appendByte])
  · exact fun hret => absurd hret (by simp [fractionLines, appendByte])
  · -- The heap pointer moves back, but not before where it was at first.
    rintro s₄ ⟨hs₄, hle⟩
    apply Ensures.straight htrim (show runFloatLines u L s₄ [.mv .hp .t5] = some (s₄.set .hp (s₄.get .t5)) from rfl)
    exact honours_finish htop hunique hfinish (hs₄.move hle)

/-! Leaves -/

/--
What routines keep that call no others.
-/
theorem Ensures.honours_leaf (hr : r.requirements = []) (hc : CodeAt lines k r.lines k')
    (haligned : s.heapTop % 4 = 0) :
    Ensures u L lines (HasRoom lines top) n ⟨s, k⟩ (Honours L lines top s) := by
  cases r with
  | concatString | toUpperCase | toLowerCase => exact honours_copying htop hunique (by decide) hc
  | intToString => exact honours_intToString htop hunique hc
  | floatToString => exact honours_floatToString htop hunique hc
  | charToString => exact honours_charToString htop hc haligned
  | arrayIndexOf | arrayJoin => cases hr
  | _ => exact honours_quiet hunique (by decide) hc haligned

end Leaves

end Arbor.Machine
