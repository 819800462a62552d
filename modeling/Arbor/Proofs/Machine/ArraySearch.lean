import Arbor.Proofs.Machine.ArrayContents

/-!
This module contains the run of the routine that looks for a value in an array: a round of its loop, and all rounds.
-/

namespace Arbor.Machine

open Assembly
open Lowering (elementCode)

def searchStart : List Line :=
  [.mv .t2 .a0, .mv .t5 .a1, .lw .t3 (-wordBytes) .t2, .li .t4 0]

def nextLines (top missing : Label) : List Line :=
  [.label top, .bge .t4 .t3 missing, .slli .t0 .t4 2, .add .t0 .t2 .t0, .lw .a0 0 .t0]

def matchLines (word next found : Label) : List Line :=
  [.li .t1 5, .bne .a2 .t1 word, .mv .a1 .t5, .jal Routine.strEquals.label, .bnez .a0 found, .j next, .label word,
    .beq .a0 .t5 found]

def outcomeLines (found missing exit : Label) : List Line :=
  [.label found, .mv .a0 .t4, .j exit, .label missing, .li .a0 (-1), .label exit]

theorem arrayIndexOfBody_eq : Routine.arrayIndexOfBody =
    push .ra ++ (searchStart ++
      (nextLines (Routine.arrayIndexOf.place "loop") (Routine.arrayIndexOf.place "missing") ++
        (matchLines (Routine.arrayIndexOf.place "word") (Routine.arrayIndexOf.place "next")
            (Routine.arrayIndexOf.place "found") ++
          ([.label (Routine.arrayIndexOf.place "next"), .addi .t4 .t4 1, .j (Routine.arrayIndexOf.place "loop")] ++
            (outcomeLines (Routine.arrayIndexOf.place "found") (Routine.arrayIndexOf.place "missing")
                (Routine.arrayIndexOf.place "exit") ++
              pop .ra))))) :=
  rfl

def isMatch (v item : Value) : Bool :=
  item.looseEq? v == some true

structure Searching (core : Core) (r : Region) (elem : Scalar) (i : Nat) (w : Word) : Prop where
  address : core.get .t2 = r.address
  length : core.get .t3 = .ofNat 32 r.length
  position : core.get .t4 = .ofNat 32 i
  needle : core.get .t5 = w
  code : core.get .a2 = .ofInt 32 (elementCode elem)

section Search

variable {L : Layout} {lines : List Line} {start : Hart} {core core' : Core} {r : Region} {elem : Scalar}
  {items rest : List Value} {u v : Value} {w : Word} {i k k' m : Nat} {top word next found missing exit : Label}

theorem Searching.of_onlySets (h : Searching core r elem i w)
    (hsets : OnlySets [.ra, .t0, .t1, .a0, .a1] core core') : Searching core' r elem i w where
  address := (hsets.registers .t2 (by decide)).trans h.address
  length := (hsets.registers .t3 (by decide)).trans h.length
  position := (hsets.registers .t4 (by decide)).trans h.position
  needle := (hsets.registers .t5 (by decide)).trans h.needle
  code := (hsets.registers .a2 (by decide)).trans h.code

theorem runLines_searchStart (ha₀ : core.get .a0 = r.address) (hheader : core.loadWord r.header = .ofNat 32 r.length) :
    runLines L core searchStart = some ((((core.set .t2 r.address).set .t5 (core.get .a1)).set .t3
      (.ofNat 32 r.length)).set .t4 0) := by
  simp [searchStart, runLine, effect, moveOp, Core.get_set, Core.get_set_of_ne, Core.loadWord_set, Region.header_eq,
    ha₀, hheader]

theorem Reaches.nextElement (hunique : ∀ l, Lowering.labelCount l lines ≤ 1)
    (hc : CodeAt lines k (nextLines top missing) k') (hmissing : lines[m]? = some (.label missing)) (hfits : r.Fits)
    (h : Searching core r elem i w) (hi : i ≤ r.length) (hg : Reaches L lines start ⟨core, k⟩) :
    if i < r.length then
      Reaches L lines start ⟨(core.set .t0 (r.element i)).set .a0 (core.loadWord (r.element i)), k'⟩
    else Reaches L lines start ⟨core, m⟩ := by
  simp only [nextLines, codeAt_instruction, codeAt_label, codeAt_nil] at hc
  obtain ⟨htop, hbge, hslli, hadd, hload, rfl⟩ := hc
  have hg₁ := (hg.label htop).branch hbge hmissing (hunique _)
  rw [h.length, h.position, branchTaken, hfits.slt_length hi] at hg₁
  split
  · next hlt =>
    rw [decide_eq_true hlt, if_neg (by decide)] at hg₁
    have hg₂ := (hg₁.step (step_instruction hslli rfl)).step (step_instruction hadd rfl)
    have haddress : (core.set .t0 (core.get .t4 <<< 2)).get .t2 + (core.set .t0 (core.get .t4 <<< 2)).get .t0 =
        r.element i := by
      rw [Core.get_set_of_ne (by decide), Core.get_set (by decide), h.address, h.position, r.address_add_shift]
    have hg₃ : Reaches L lines start ⟨core.set .t0 (r.element i), k + 1 + 1 + 1 + 1⟩ := by
      rw [← haddress, ← Core.set_set (c := core) (v := core.get .t4 <<< 2)]
      exact hg₂
    have hg₄ := hg₃.step (step_instruction hload rfl)
    rw [Core.get_set (by decide)] at hg₄
    simpa [Core.loadWord_set] using hg₄
  · next hge =>
    rw [decide_eq_false hge, if_pos (by decide)] at hg₁
    exact hg₁

theorem Reaches.matchElement (hlinked : Linked L lines) (hc : CodeAt lines k (matchLines word next found) k')
    (hnext : lines[k']? = some (.label next)) (hfound : lines[m]? = some (.label found))
    (h : Searching core r elem i w) (hu : ElementAt core (core.get .a0) elem u) (hv : ElementAt core w elem v)
    (hg : Reaches L lines start ⟨core, k⟩) :
    ∃ core', Reaches L lines start ⟨core', if isMatch v u then m else k'⟩ ∧
      OnlySets [.ra, .t0, .t1, .a0, .a1] core core' := by
  have hunique := hlinked.unique
  simp only [matchLines, codeAt_instruction, codeAt_label, codeAt_nil] at hc
  obtain ⟨hli, hbne, hmv, hcall, hbnez, hj, hword, hbeq, rfl⟩ := hc
  have h₁ : OnlySets [.ra, .t0, .t1, .a0, .a1] core (core.set .t1 5) := (OnlySets.refl core).set (by decide)
  have hg₁ := (hg.step (step_instruction hli rfl)).branch hbne hword (hunique _)
  rw [Core.get_set_of_ne (by decide), Core.get_set (by decide), h.code, branchTaken] at hg₁
  -- Strings are compared by a routine, and everything else as words.
  by_cases helem : elem = .string
  · subst helem
    cases hu with
    | @text s hs =>
      cases hv with
      | @text t ht =>
        rw [if_neg (by decide)] at hg₁
        let core₂ := (core.set .t1 5).set .a1 (core.get .t5)
        have h₂ : OnlySets [.ra, .t0, .t1, .a0, .a1] core core₂ := h₁.set (by decide)
        have hg₂ : Reaches L lines start ⟨core₂, k + 1 + 1 + 1⟩ := hg₁.step (step_instruction hmv rfl)
        have ht₂ : EndedAt core₂ (core₂.get .a1) (bytes t) := by
          have hneedle : core₂.get .a1 = w := h.needle
          rw [hneedle]
          exact textAt_iff.mp (h₂.textAt (by decide) ht)
        obtain ⟨core₃, hg₃, h₃, hresult⟩ := onlySets_strEquals hlinked hcall
          (List.getElem?_eq_some_iff.mp hbnez).1 hg₂ (textAt_iff.mp (h₂.textAt (by decide) hs)) ht₂
        have hg₄ := hg₃.branchZero hbnez hfound (hunique _)
        simp only [hresult, bytes_inj, zeroBranchTaken] at hg₄
        refine ⟨core₃, ?_, h₂.trans h₃⟩
        by_cases hst : s = t
        · simpa [isMatch, Value.looseEq?, Value.number?, Value.asText?, hst] using hg₄
        · simp only [hst, if_false] at hg₄
          have hg₅ := Reaches.jump (by simpa using hg₄) hj hnext (hunique _)
          simpa [isMatch, Value.looseEq?, Value.number?, Value.asText?, hst] using hg₅
  · have hother : BitVec.ofInt 32 (elementCode elem) ≠ 5#32 := by
      cases elem with
      | string => exact absurd rfl helem
      | _ => decide
    have hmatch : isMatch v u = decide (core.get .a0 = w) := by
      rw [isMatch, Bool.beq_eq_decide_eq]
      exact decide_eq_decide.mpr (word_eq_iff hu hv helem).symm
    rw [if_pos (by simpa using hother)] at hg₁
    have hg₂ := (hg₁.label hword).branch hbeq hfound (hunique _)
    rw [branchTaken, Core.get_set_of_ne (by decide), Core.get_set_of_ne (by decide), h.needle] at hg₂
    refine ⟨core.set .t1 5, ?_, h₁⟩
    rw [hmatch]
    exact hg₂

def positionWord : Option Nat → Word
  | some i => .ofNat 32 i
  | none => -1

theorem Reaches.search {k₁ k₂ : Nat} (hlinked : Linked L lines)
    (hhead : CodeAt lines k (nextLines top missing) k₁) (hmatch : CodeAt lines k₁ (matchLines word next found) k₂)
    (hagain : CodeAt lines k₂ [.label next, .addi .t4 .t4 1, .j top] m)
    (htail : CodeAt lines m (outcomeLines found missing exit) k') (harray : ArrayAt core r elem items)
    (hv : ElementAt core w elem v) (hi : i ≤ r.length) (hrest : items.drop i = rest) (h : Searching core r elem i w)
    (hg : Reaches L lines start ⟨core, k⟩) :
    ∃ core', Reaches L lines start ⟨core', k'⟩ ∧ OnlySets [.ra, .t0, .t1, .t4, .a0, .a1] core core' ∧
      core'.get .a0 = positionWord ((rest.findIdx? (isMatch v)).map (i + ·)) := by
  have hunique := hlinked.unique
  have htop : lines[k]? = some (.label top) := (codeAt_label.mp hhead).1
  simp only [outcomeLines, codeAt_instruction, codeAt_label, codeAt_nil] at htail hagain
  obtain ⟨hfound, hmv, hexit, hmissing, hli, hout, rfl⟩ := htail
  obtain ⟨hnext, haddi, hjump, rfl⟩ := hagain
  -- The induction is on the elements from the position on, which are the ones that the loop has not seen.
  induction rest generalizing core i with
  | nil =>
    have hend : ¬i < r.length := by
      rw [← harray.length]
      exact Nat.not_lt.mpr (List.drop_eq_nil_iff.mp hrest)
    have hg₁ := hg.nextElement hunique hhead hmissing harray.fits h hi
    rw [if_neg hend] at hg₁
    have hg₂ := ((hg₁.label hmissing).step (step_instruction hli rfl)).label hout
    exact ⟨_, hg₂, (OnlySets.refl core).set (by decide), rfl⟩
  | cons u rest ih =>
    obtain ⟨hlt, hu, hrest'⟩ := harray.of_drop hrest
    have hg₁ := hg.nextElement hunique hhead hmissing harray.fits h hi
    rw [if_pos hlt] at hg₁
    let core₁ := (core.set .t0 (r.element i)).set .a0 (core.loadWord (r.element i))
    have h₁ : OnlySets [.ra, .t0, .t1, .a0, .a1] core core₁ :=
      ((OnlySets.refl core).set (by decide)).set (by decide)
    have hv₁ : ElementAt core₁ w elem v := (h₁.extends (by decide)).elementAt hv
    have hu₁ : ElementAt core₁ (core₁.get .a0) elem u := (h₁.extends (by decide)).elementAt (harray.elements i u hu)
    obtain ⟨core₂, hg₂, h₂⟩ := hg₁.matchElement hlinked hmatch hnext hfound (h.of_onlySets h₁) hu₁ hv₁
    have hsearching := h.of_onlySets (h₁.trans h₂)
    have h₂ : OnlySets [.ra, .t0, .t1, .t4, .a0, .a1] core core₂ := (h₁.trans h₂).mono (by decide)
    rw [List.findIdx?_cons]
    split
    · next hu =>
      rw [hu, if_pos rfl] at hg₂
      have hg₃ := ((hg₂.label hfound).step (step_instruction hmv rfl)).jump hexit hout (hunique _)
      exact ⟨_, hg₃.label hout, h₂.set (by decide), hsearching.position⟩
    · next hu =>
      rw [if_neg hu] at hg₂
      have hg₃ := ((hg₂.label hnext).step (step_instruction haddi rfl)).jump hjump htop (hunique _)
      have h₃ : OnlySets [.ra, .t0, .t1, .t4, .a0, .a1] core (core₂.set .t4 (core₂.get .t4 + 1)) := h₂.set (by decide)
      have hgrown := h₃.extends (by decide)
      obtain ⟨core', hg', h', hresult⟩ := ih (harray.of_extends hgrown) (hgrown.elementAt hv)
        (Nat.succ_le_of_lt hlt) hrest'
        ⟨hsearching.address, hsearching.length, position_succ hsearching.position, hsearching.needle, hsearching.code⟩
        hg₃
      refine ⟨core', hg', h₃.trans h', ?_⟩
      rw [hresult, Option.map_map]
      refine congrArg (fun f => positionWord (Option.map f _)) (funext fun j => ?_)
      simp only [Function.comp_apply]
      omega

/--
A routine returned the position of a value. It wrote to no memory but the word below the stack.
-/
structure Found (core core' : Core) (position : Option Nat) : Prop where
  result : core'.get .a0 = positionWord position
  memory : ∀ a : Word, 4 ≤ a - (core.get .sp - 4) → core'.memory a = core.memory a
  registers : ∀ rd, rd ∉ .ra :: scratch → core'.get rd = core.get rd
  output : core'.output = core.output

theorem found_arrayIndexOf (hlinked : Linked L lines) (hcall : lines[m]? = some (.jal Routine.arrayIndexOf.label))
    (hlength : m + 1 < lines.length) (hg : Reaches L lines start ⟨core, m⟩) (haddress : core.get .a0 = r.address)
    (hcode : core.get .a2 = .ofInt 32 (elementCode elem)) (harray : ArrayAt core r elem items)
    (hv : ElementAt core (core.get .a1) elem v) (hroom : (core.get .hp).toNat + 4 ≤ (core.get .sp).toNat) :
    ∃ core', Reaches L lines start ⟨core', m + 1⟩ ∧ Found core core' (items.findIdx? (isMatch v)) := by
  apply hlinked.returns hcall hlength hg
  intro i j hc hret hg
  have hc : CodeAt lines i Routine.arrayIndexOfBody j := hc
  rw [arrayIndexOfBody_eq] at hc
  obtain ⟨i₁, hpush, hc⟩ := codeAt_append.mp hc
  obtain ⟨i₂, hstart, hc⟩ := codeAt_append.mp hc
  obtain ⟨i₃, hnext, hc⟩ := codeAt_append.mp hc
  obtain ⟨i₄, hmatch, hc⟩ := codeAt_append.mp hc
  obtain ⟨i₅, hagain, hc⟩ := codeAt_append.mp hc
  obtain ⟨i₆, htail, hpop⟩ := codeAt_append.mp hc
  let a := core.get .sp - 4
  let ra := L.code (m + 1)
  let core₁ := ((core.set .ra ra).set .sp a).storeWord a ra
  have hg₁ := hg.push (by decide) hpush
  rw [Core.get_set (by decide), Core.get_set_of_ne (by decide)] at hg₁
  have hpushed : core₁.loadWord a = ra := Core.loadWord_storeWord
  have ha : a.toNat = (core.get .sp).toNat - 4 := by
    change (core.get .sp - 4).toNat = _
    bv_omega
  have hgrown : Extends core core₁ :=
    (((Extends.refl core).set (by decide)).set (by decide)).storeWord (by omega) (by omega)
  have harray₁ := harray.of_extends hgrown
  let core₂ := (((core₁.set .t2 r.address).set .t5 (core.get .a1)).set .t3 (.ofNat 32 r.length)).set .t4 0
  have hg₂ : Reaches L lines start ⟨core₂, i₂⟩ := hg₁.straight hstart (runLines_searchStart haddress harray₁.header)
  have h₂ : OnlySets (.ra :: scratch) core₁ core₂ :=
    ((((OnlySets.refl core₁).set (by decide)).set (by decide)).set (by decide)).set (by decide)
  have hgrown₂ := h₂.extends (by decide)
  obtain ⟨core₃, hg₃, h₃, hresult⟩ := hg₂.search hlinked hnext hmatch hagain htail (harray₁.of_extends hgrown₂)
    (hgrown₂.elementAt (hgrown.elementAt hv)) (Nat.zero_le _) rfl ⟨rfl, rfl, rfl, rfl, hcode⟩
  have h₃ : OnlySets (.ra :: scratch) core₁ core₃ := h₂.trans (h₃.mono (by decide))
  have hsp : core₃.get .sp = a := h₃.registers .sp (by decide)
  have hword : core₃.loadWord (core₃.get .sp) = ra := by
    rw [hsp, ← hpushed]
    exact Core.loadWord_congr h₃.memory
  have hg₄ := hg₃.pop (by decide) hpop
  rw [hword] at hg₄
  refine ⟨(core₃.set .ra ra).set .sp (core₃.get .sp + 4), j, hg₄, hret, ?_, ⟨?_, ?_, ?_, ?_⟩⟩
  · rw [Core.get_set_of_ne (by decide), Core.get_set (by decide)]
  · rw [Core.get_set_of_ne (by decide), Core.get_set_of_ne (by decide), hresult, List.drop_zero]
    simp
  · intro x hx
    exact (congrFun h₃.memory x).trans (Core.memory_storeWord hx)
  · intro rd hrd
    by_cases hrd' : rd = .sp
    · subst hrd'
      rw [Core.get_set (by decide), hsp, BitVec.sub_add_cancel]
    · have hra : rd ≠ .ra := fun h => hrd (h ▸ List.mem_cons_self)
      rw [Core.get_set_of_ne hrd', Core.get_set_of_ne hra, h₃.registers rd hrd, Core.get_storeWord,
        Core.get_set_of_ne hrd', Core.get_set_of_ne hra]
  · exact h₃.output

end Search

end Arbor.Machine
