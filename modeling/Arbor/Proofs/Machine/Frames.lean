import Arbor.Proofs.Assembly.Symbols
import Arbor.Proofs.Machine.Leaves

/-!
This module contains the routines that save registers on the stack and call others.
-/

namespace Arbor.Machine

open Assembly Lowering

namespace FloatCore

variable {s : FloatCore} {r : Register} {a w : Word}

def storeWord (s : FloatCore) (a w : Word) : FloatCore :=
  { s with core := s.core.storeWord a w }

@[simp]
theorem get_storeWord : (s.storeWord a w).get r = s.get r :=
  Core.get_storeWord

end FloatCore

def saveLines : Nat → List Register → List Line
  | _, [] => []
  | i, r :: rs => .sw r i .sp :: saveLines (i + 4) rs

def restoreLines : Nat → List Register → List Line
  | _, [] => []
  | i, r :: rs => .lw r i .sp :: restoreLines (i + 4) rs

def enterLines (rs : List Register) : List Line :=
  .addi .sp .sp (-(4 * rs.length : Nat)) :: saveLines 0 rs

def leaveLines (rs : List Register) : List Line :=
  restoreLines 0 rs ++ [.addi .sp .sp (4 * rs.length : Nat)]

def Saved (s : FloatCore) (core : Core) : Word → List Register → Prop
  | _, [] => True
  | a, r :: rs => core.loadWord a = s.get r ∧ Saved s core (a + 4) rs

section Saved

variable {s s' c c' : FloatCore} {core core' : Core} {a : Word} {rs : List Register} {i lo : Nat} {u : FloatUnit}
  {L : Layout}

theorem Saved.congr (lo : Nat) (hsaved : Saved s core a rs) (ha : lo ≤ a.toNat)
    (hbound : a.toNat + 4 * rs.length < 2 ^ 32)
    (h : ∀ x : Word, lo ≤ x.toNat → core'.memory x = core.memory x) : Saved s core' a rs := by
  induction rs generalizing a with
  | nil => trivial
  | cons r rs ih =>
    rw [List.length_cons] at hbound
    have hnext : (a + 4).toNat = a.toNat + 4 := by bv_omega
    have hword : core'.loadWord a = core.loadWord a :=
      Core.loadWord_of_bytes fun x hx => h x (by bv_omega)
    exact ⟨hword.trans hsaved.1, ih hsaved.2 (by omega) (by omega)⟩

theorem Saved.of_get (hsaved : Saved s core a rs) (h : ∀ r ∈ rs, s.get r = s'.get r) : Saved s' core a rs := by
  induction rs generalizing a with
  | nil => trivial
  | cons r rs ih =>
    exact ⟨hsaved.1.trans (h r List.mem_cons_self), ih hsaved.2 fun r' hr' => h r' (List.mem_cons_of_mem _ hr')⟩

theorem runFloatLines_cons {l : Line} {rest : List Line} {s₁ : FloatCore} (h : runFloatLine u L s l = some s₁) :
    runFloatLines u L s (l :: rest) = runFloatLines u L s₁ rest := by
  unfold runFloatLines
  rw [List.foldlM_cons, h]
  rfl

theorem add_offset {w : Word} (i : Nat) : w + .ofInt 32 (i : Nat) + 4 = w + .ofInt 32 (i + 4 : Nat) := by
  simp only [BitVec.ofInt_natCast, BitVec.ofNat_add]
  exact BitVec.add_assoc ..

theorem toNat_add_offset {w : Word} (h : w.toNat + i < 2 ^ 32) : (w + .ofInt 32 (i : Nat)).toNat = w.toNat + i := by
  rw [BitVec.ofInt_natCast, BitVec.toNat_add, BitVec.toNat_ofNat]
  omega

theorem run_saveLines (s : FloatCore) (i : Nat) (rs : List Register)
    (hbound : (s.get .sp).toNat + i + 4 * rs.length < 2 ^ 32) :
    ∃ s', runFloatLines u L s (saveLines i rs) = some s' ∧ (∀ r, s'.get r = s.get r) ∧
      (∀ x : Word, x.toNat < (s.get .sp).toNat + i ∨ (s.get .sp).toNat + i + 4 * rs.length ≤ x.toNat →
        s'.core.memory x = s.core.memory x) ∧
      Saved s s'.core (s.get .sp + .ofInt 32 i) rs := by
  induction rs generalizing s i with
  | nil => exact ⟨s, rfl, fun _ => rfl, fun _ _ => rfl, trivial⟩
  | cons r rs ih =>
    rw [List.length_cons] at hbound
    let a : Word := s.get .sp + .ofInt 32 i
    have ha : a.toNat = (s.get .sp).toNat + i := toNat_add_offset (by omega)
    let s₁ := s.storeWord a (s.get r)
    have hget (r : Register) : s₁.get r = s.get r := FloatCore.get_storeWord
    obtain ⟨s', hrun, hregisters, hmemory, hsaved⟩ := ih s₁ (i + 4) (by rw [hget]; omega)
    simp only [hget] at hregisters hmemory hsaved
    have hfirst : s'.core.loadWord a = s.get r := by
      have hkept : s'.core.loadWord a = s₁.core.loadWord a :=
        Core.loadWord_of_bytes fun x hx => hmemory x (.inl (by bv_omega))
      rw [hkept]
      exact Core.loadWord_storeWord
    refine ⟨s', (runFloatLines_cons rfl).trans hrun, hregisters, fun x hx => ?_, hfirst, ?_⟩
    · rw [List.length_cons] at hx
      rw [hmemory x (by omega)]
      exact Core.memory_storeWord (by bv_omega)
    · rw [add_offset]
      exact hsaved.of_get fun r _ => hget r

theorem run_restoreLines (hrs : .sp ∉ rs ∧ .zero ∉ rs) (hcore : c.core.memory = core.memory)
    (hsaved : Saved s core (c.get .sp + .ofInt 32 i) rs) :
    ∃ c', runFloatLines u L c (restoreLines i rs) = some c' ∧ c'.core.memory = core.memory ∧
      (∀ r ∈ rs, c'.get r = s.get r) ∧ ∀ r ∉ rs, c'.get r = c.get r := by
  induction rs generalizing c i with
  | nil => exact ⟨c, rfl, hcore, fun _ hr => absurd hr List.not_mem_nil, fun _ _ => rfl⟩
  | cons r rs ih =>
    simp only [List.mem_cons, not_or] at hrs
    obtain ⟨⟨hsp, hsp'⟩, hzero, hzero'⟩ := hrs
    let c₁ := c.set r (s.get r)
    have hload : runFloatLine u L c (.lw r i .sp) = some c₁ := by
      have hword : c.core.loadWord (c.get .sp + .ofInt 32 i) = s.get r := by
        unfold Core.loadWord
        rw [hcore]
        exact hsaved.1
      change some (c.set r (c.core.loadWord (c.get .sp + .ofInt 32 i))) = _
      rw [hword]
    have hsp₁ : c₁.get .sp = c.get .sp := FloatCore.get_set_of_ne hsp
    obtain ⟨c', hrun, hmemory, hin, hout⟩ := ih (c := c₁) (i := i + 4) ⟨hsp', hzero'⟩ hcore (by
      rw [hsp₁, ← add_offset]
      exact hsaved.2)
    refine ⟨c', (runFloatLines_cons hload).trans hrun, hmemory, fun r' hr' => ?_, fun r' hr' => ?_⟩
    · by_cases hmem : r' ∈ rs
      · exact hin r' hmem
      · rcases List.mem_cons.mp hr' with rfl | hr'
        · rw [hout r' hmem]
          exact FloatCore.get_set (Ne.symm hzero)
        · exact absurd hr' hmem
    · simp only [List.mem_cons, not_or] at hr'
      rw [hout r' hr'.2]
      exact FloatCore.get_set_of_ne hr'.1

structure InFrame (rs : List Register) (s s' : FloatCore) : Prop where
  pointer : s'.get .sp = s.get .sp - .ofNat 32 (4 * rs.length)
  saved : Saved s s'.core (s'.get .sp) rs

theorem InFrame.congr (hframe : InFrame rs s s') (hsp : c.get .sp = s'.get .sp)
    (hbound : (s'.get .sp).toNat + 4 * rs.length < 2 ^ 32)
    (h : ∀ x : Word, (s'.get .sp).toNat ≤ x.toNat → c.core.memory x = s'.core.memory x) : InFrame rs s c := by
  refine ⟨hsp.trans hframe.pointer, ?_⟩
  rw [hsp]
  exact hframe.saved.congr _ (Nat.le_refl _) hbound h

theorem run_enterLines (s : FloatCore) (rs : List Register) (hroom : 4 * rs.length ≤ (s.get .sp).toNat)
    (hsp : .sp ∉ rs) :
    ∃ s', runFloatLines u L s (enterLines rs) = some s' ∧ InFrame rs s s' ∧ (∀ r ≠ .sp, s'.get r = s.get r) ∧
      ∀ x : Word, x.toNat < (s'.get .sp).toNat ∨ (s.get .sp).toNat ≤ x.toNat →
        s'.core.memory x = s.core.memory x := by
  let w : Word := s.get .sp + .ofInt 32 (-(4 * rs.length : Nat))
  have hw : w = s.get .sp - .ofNat 32 (4 * rs.length) := by
    rw [BitVec.sub_eq_add_neg, ← BitVec.ofInt_natCast, ← BitVec.ofInt_neg]
  have hwNat : w.toNat = (s.get .sp).toNat - 4 * rs.length := by
    rw [hw]
    bv_omega
  have hsp₁ : (s.set .sp w).get .sp = w := FloatCore.get_set (by decide)
  obtain ⟨s', hsave, hregisters, hmemory, hsaved⟩ :=
    run_saveLines (u := u) (L := L) (s.set .sp w) 0 rs (by rw [hsp₁]; omega)
  have hsp' : s'.get .sp = w := (hregisters .sp).trans hsp₁
  refine ⟨s', (runFloatLines_cons rfl).trans hsave, ⟨hsp'.trans hw, ?_⟩, fun r hr => ?_, fun x hx => ?_⟩
  · have hzero : (s.set .sp w).get .sp + .ofInt 32 (0 : Nat) = s'.get .sp := by
      rw [hsp₁, hsp']
      exact BitVec.add_zero w
    rw [hzero] at hsaved
    exact hsaved.of_get fun r hr => FloatCore.get_set_of_ne fun heq => hsp (heq ▸ hr)
  · rw [hregisters r, FloatCore.get_set_of_ne hr]
  · rw [hsp'] at hx
    rw [hsp₁] at hmemory
    exact hmemory x (by omega)

theorem runFloatLines_append {before after : List Line} {s₁ : FloatCore} (h : runFloatLines u L s before = some s₁) :
    runFloatLines u L s (before ++ after) = runFloatLines u L s₁ after := by
  unfold runFloatLines at h ⊢
  rw [List.foldlM_append, h]
  rfl

theorem run_leaveLines (hframe : InFrame rs s s') (hrs : .sp ∉ rs ∧ .zero ∉ rs) :
    ∃ c, runFloatLines u L s' (leaveLines rs) = some c ∧ c.core.memory = s'.core.memory ∧
      (∀ r ∈ .sp :: rs, c.get r = s.get r) ∧ ∀ r ∉ .sp :: rs, c.get r = s'.get r := by
  have hzero : s'.get .sp + .ofInt 32 (0 : Nat) = s'.get .sp := BitVec.add_zero _
  obtain ⟨c, hrun, hmemory, hin, hout⟩ :=
    run_restoreLines (u := u) (L := L) (i := 0) hrs rfl (by rw [hzero]; exact hframe.saved)
  let w : Word := c.get .sp + .ofInt 32 (4 * rs.length : Nat)
  have hw : w = s.get .sp := by
    change c.get .sp + .ofInt 32 (4 * rs.length : Nat) = s.get .sp
    rw [hout .sp hrs.1, hframe.pointer, BitVec.ofInt_natCast, BitVec.sub_add_cancel]
  refine ⟨c.set .sp w, (runFloatLines_append hrun).trans rfl, hmemory, fun r hr => ?_, fun r hr => ?_⟩
  · by_cases hsp : r = .sp
    · rw [hsp, FloatCore.get_set (by decide), hw]
    · rw [FloatCore.get_set_of_ne hsp]
      exact hin r ((List.mem_cons.mp hr).resolve_left hsp)
  · rw [List.mem_cons, not_or] at hr
    rw [FloatCore.get_set_of_ne hr.1]
    exact hout r hr.2

/-! Frames of the machine without floats -/

theorem runLines_of_runFloatLines {c : List Line} (hc : ∀ l ∈ c, ∀ s, floatEffect u s l = none)
    (hrun : runFloatLines u L s c = some s') : runLines L s.core c = some s'.core := by
  induction c generalizing s with
  | nil =>
    cases hrun
    rfl
  | cons l rest ih =>
    rw [List.forall_mem_cons] at hc
    unfold runFloatLines at hrun
    rw [List.foldlM_cons] at hrun
    obtain ⟨s₁, hline, hrest⟩ := Option.bind_eq_some_iff.mp hrun
    rw [runFloatLine, hc.1, Option.none_or, Option.map_eq_some_iff] at hline
    obtain ⟨core₁, hline, rfl⟩ := hline
    rw [runLines_cons, hline]
    exact ih hc.2 hrest

theorem floatEffect_saveLines {l : Line} (hl : l ∈ saveLines i rs) (s : FloatCore) : floatEffect u s l = none := by
  induction rs generalizing i with
  | nil => cases hl
  | cons r rs ih =>
    rcases List.mem_cons.mp hl with rfl | hl
    · rfl
    · exact ih hl

theorem floatEffect_restoreLines {l : Line} (hl : l ∈ restoreLines i rs) (s : FloatCore) :
    floatEffect u s l = none := by
  induction rs generalizing i with
  | nil => cases hl
  | cons r rs ih =>
    rcases List.mem_cons.mp hl with rfl | hl
    · rfl
    · exact ih hl

instance : Nonempty FloatUnit :=
  ⟨⟨fun _ a _ => a, fun _ a => a, fun _ _ _ => false, id, id, fun _ => []⟩⟩

section Reaches

variable {lines : List Line} {start : Hart} {k k' : Nat} {f : FloatRegister → Word}

theorem Reaches.enteredFrame (f : FloatRegister → Word) (hroom : 4 * rs.length ≤ (core.get .sp).toNat) (hsp : .sp ∉ rs)
    (hc : CodeAt lines k (enterLines rs) k') (hg : Reaches L lines start ⟨core, k⟩) :
    ∃ core', Reaches L lines start ⟨core', k'⟩ ∧ InFrame rs ⟨core, f⟩ ⟨core', f⟩ ∧
      (∀ r ≠ .sp, core'.get r = core.get r) ∧
      ∀ x : Word, x.toNat < (core'.get .sp).toNat ∨ (core.get .sp).toNat ≤ x.toNat →
        core'.memory x = core.memory x := by
  obtain ⟨u⟩ : Nonempty FloatUnit := inferInstance
  obtain ⟨s', hrun, hframe, hregisters, hmemory⟩ := run_enterLines (u := u) (L := L) ⟨core, f⟩ rs hroom hsp
  refine ⟨s'.core, hg.straight hc (runLines_of_runFloatLines (fun l hl s => ?_) hrun),
    ⟨hframe.pointer, hframe.saved⟩, hregisters, hmemory⟩
  rcases List.mem_cons.mp hl with rfl | hl
  · rfl
  · exact floatEffect_saveLines hl s

theorem Reaches.leftFrame (hframe : InFrame rs ⟨core, f⟩ ⟨core', f⟩) (hrs : .sp ∉ rs ∧ .zero ∉ rs)
    (hc : CodeAt lines k (leaveLines rs) k') (hg : Reaches L lines start ⟨core', k⟩) :
    ∃ core'', Reaches L lines start ⟨core'', k'⟩ ∧ core''.memory = core'.memory ∧
      (∀ r ∈ .sp :: rs, core''.get r = core.get r) ∧ ∀ r ∉ .sp :: rs, core''.get r = core'.get r := by
  obtain ⟨u⟩ : Nonempty FloatUnit := inferInstance
  obtain ⟨c, hrun, hmemory, hin, hout⟩ := run_leaveLines (u := u) (L := L) hframe hrs
  refine ⟨c.core, hg.straight hc (runLines_of_runFloatLines (fun l hl s => ?_) hrun), hmemory, hin, hout⟩
  rcases List.mem_append.mp hl with hl | hl
  · exact floatEffect_restoreLines hl s
  · cases List.mem_singleton.mp hl
    rfl

end Reaches

end Saved

section Framed

variable {u : FloatUnit} {L : Layout} {lines c : List Line} {top n k k' : Nat} {s s₁ : FloatCore} {rs : List Register}

def CallsLeaves (lines c : List Line) : Prop :=
  ∀ t, .jal t ∈ c → ∃ (r : Routine) (k k' : Nat), t = r.label ∧ r.requirements = [] ∧ CodeAt lines k r.lines k'

theorem keeps_calls (htop : top + 4 ≤ 2 ^ 32) (hunique : ∀ l, labelCount l lines ≤ 1) (hfits : L.Fits lines)
    (hra : .ra ∈ rs) (hhp : .hp ∉ rs) (hlines : ∀ l ∈ c, l.callee? = none → onlyChanges (rs ++ scratch) l = true)
    (hcontained : isContained c = true) (hcalls : CallsLeaves lines c) :
    Keeps u L lines (HasRoom lines top)
      (fun s' => Grown (rs ++ scratch) top s₁ s' ∧ s'.heapTop % 4 = 0) c := by
  have hhp' : .hp ∉ rs ++ scratch := by simp [hhp, hp_notMem_scratch]
  refine ⟨jumps_of_isContained hcontained, ?_, ?_⟩
  · rintro l hl _ s₂ s₃ - - ⟨hs₂, haligned⟩ hrun
    cases hcallee : l.callee? with
    | none =>
      have hs₃ := changes_of_onlyChanges (hlines l hl hcallee) hrun
      exact ⟨hs₂.trans (hs₃.grown hhp'), by rwa [hs₃.heapTop_eq hhp']⟩
    | some t =>
      cases l with
      | label | comment => cases hcallee
      | instruction i => cases i <;> first | cases hcallee; done | cases hrun
  · rintro t ht n k s₂ hline hlength ⟨hs₂, haligned⟩
    -- The call changes `ra` first, which the frame holds.
    obtain ⟨r, k₁, k₂, rfl, hleaf, hr⟩ := hcalls t ht
    refine ⟨k₁, target?_eq (codeAt_label.mp hr).1 (hunique _), ?_⟩
    have haligned : (s₂.set .ra (L.code (k + 1))).heapTop % 4 = 0 := by
      rwa [FloatCore.heapTop_set_of_ne (by decide)]
    apply (Ensures.honours_leaf htop hunique hleaf hr haligned).mono
    intro f hf
    have hreturns := hf.returns
    rw [FloatCore.get_set (by decide), hfits.lineAt?_eq hline hlength] at hreturns
    have hset : Grown (rs ++ scratch) top s₁ (s₂.set .ra (L.code (k + 1))) := hs₂.set (by simp [hra]) hhp'
    have hgrown := hf.grown.mono (List.subset_append_right rs scratch) (Nat.le_refl top)
    exact ⟨(Option.some.inj hreturns).symm, hset.trans hgrown, hf.aligned⟩

/--
A routine that saves the registers that it changes and calls others.
-/
theorem Ensures.honours_framed (htop : top + 4 * rs.length ≤ (s.get .sp).toNat) (hsp : (s.get .sp).toNat + 4 ≤ 2 ^ 32)
    (hunique : ∀ l, labelCount l lines ≤ 1) (hfits : L.Fits lines)
    (hrs : .ra ∈ rs ∧ .sp ∉ rs ∧ .zero ∉ rs ∧ .hp ∉ rs) {t : Label}
    (hlines : ∀ l ∈ c, l.callee? = none → onlyChanges (rs ++ scratch) l = true) (hcontained : isContained c = true)
    (hret : .ret ∉ c) (hcalls : CallsLeaves lines c)
    (hc : CodeAt lines k (.label t :: (enterLines rs ++ (c ++ (leaveLines rs ++ [.ret])))) k')
    (haligned : s.heapTop % 4 = 0) :
    Ensures u L lines (HasRoom lines top) n ⟨s, k⟩ (Honours L lines (s.get .sp).toNat s) := by
  obtain ⟨hra, hsp', hzero, hhp⟩ := hrs
  obtain ⟨hlabel, hc⟩ := codeAt_label.mp hc
  obtain ⟨k₁, henter, hc⟩ := codeAt_append.mp hc
  obtain ⟨k₂, hbody, hc⟩ := codeAt_append.mp hc
  obtain ⟨k₃, hleave, hreturn⟩ := codeAt_append.mp hc
  apply Ensures.of_ok
  intro hroom
  have hpointer : s.heapTop ≤ top := hroom.pointer (by simp [hlabel])
  apply Ensures.line hlabel rfl
  obtain ⟨s₁, hrun, hframe, hregisters, hmemory⟩ :=
    run_enterLines (u := u) (L := L) s rs (Nat.le_of_add_left_le htop) hsp'
  have hspNat : (s₁.get .sp).toNat = (s.get .sp).toNat - 4 * rs.length := by
    rw [hframe.pointer]
    bv_omega
  have hheap₁ : s₁.heapTop = s.heapTop := congrArg BitVec.toNat (hregisters .hp (by decide))
  apply Ensures.straight henter hrun
  -- The frame lies from `top` on, where neither the lines nor the routines that they call write.
  apply (keeps_calls (by omega) hunique hfits hra hhp hlines hcontained hcalls).region hunique hbody _ _ _
    ⟨Grown.refl, by rwa [hheap₁]⟩ (Nat.le_refl _) hbody.le
  · have hlast := List.getElem?_eq_some_iff.mp (codeAt_ret hreturn)
    exact fun _ _ => Nat.lt_of_le_of_lt hleave.le hlast.1
  · exact fun hmem => absurd hmem hret
  · rintro s₂ ⟨hs₂, haligned₂⟩
    have hsphp : Register.sp ≠ .hp := by decide
    have hsp₂ : s₂.get .sp = s₁.get .sp := hs₂.registers .sp (by simp [hsp', hsphp, scratch])
    have hframe₂ : InFrame rs s s₂ :=
      hframe.congr hsp₂ (by omega) fun x hx => hs₂.memory x (.inr (by omega))
    obtain ⟨s₃, hrun₃, hmemory₃, hin, hout⟩ := run_leaveLines (u := u) (L := L) hframe₂ ⟨hsp', hzero⟩
    have hheap₃ : s₃.heapTop = s₂.heapTop := congrArg BitVec.toNat (hout .hp (by simp [hhp, hsphp.symm]))
    apply Ensures.straight hleave hrun₃
    apply honours_ret (codeAt_ret hreturn)
    · refine ⟨fun r hr => ?_, fun x hx => ?_, ?_⟩
      · by_cases hmem : r ∈ .sp :: rs
        · exact hin r hmem
        · have hne : r ≠ .sp := List.ne_of_not_mem_cons hmem
          rw [hout r hmem, hs₂.registers r, hregisters r hne]
          simp only [List.mem_cons, List.mem_append, not_or] at hr hmem ⊢
          exact ⟨hr.1, hmem.2, hr.2⟩
      · rw [hmemory₃, hs₂.memory x (by omega), hmemory x (by omega)]
      · rw [hheap₃, ← hheap₁]
        exact hs₂.pointer
    · rwa [hheap₃]

end Framed

end Arbor.Machine
