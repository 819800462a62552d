import Arbor.Proofs.Machine.ArrayContents
import Arbor.Proofs.Machine.Frames
import Arbor.Proofs.Machine.Numerals

/-!
This module contains the run of the routine that joins the elements of an array: the conversion of an element to its
text, a round of its loop, and all rounds.
-/

namespace Arbor.Machine

open Assembly
open Lowering (elementCode labelCount)

structure Allocated (rs : List Register) (core core' : Core) (n : Nat) : Prop where
  registers : ∀ rd, rd ∉ rs → core'.get rd = core.get rd
  below : ∀ a : Word, a.toNat < (core.get .hp).toNat → core'.memory a = core.memory a
  above : ∀ a : Word, (core'.get .hp).toNat ≤ a.toNat → core'.memory a = core.memory a
  pointer : (core'.get .hp).toNat = (core.get .hp).toNat + n
  aligned : (core'.get .hp).toNat % 4 = 0

namespace Allocated

variable {rs rs' : List Register} {rd : Register} {core core' core'' : Core} {w : Word} {n n' : Nat} {s : String}
  {xs : List UInt8}

theorem refl (haligned : (core.get .hp).toNat % 4 = 0) : Allocated rs core core 0 :=
  ⟨fun _ _ => rfl, fun _ _ => rfl, fun _ _ => rfl, rfl, haligned⟩

theorem trans (h : Allocated rs core core' n) (h' : Allocated rs core' core'' n') :
    Allocated rs core core'' (n + n') where
  registers rd hrd := (h'.registers rd hrd).trans (h.registers rd hrd)
  below a ha := (h'.below a (by rw [h.pointer]; omega)).trans (h.below a ha)
  above a ha := (h'.above a ha).trans (h.above a (by rw [h'.pointer] at ha; omega))
  pointer := by rw [h'.pointer, h.pointer, Nat.add_assoc]
  aligned := h'.aligned

theorem mono (h : Allocated rs core core' n) (hsubset : rs ⊆ rs') : Allocated rs' core core' n where
  registers rd hrd := h.registers rd fun hmem => hrd (hsubset hmem)
  below := h.below
  above := h.above
  pointer := h.pointer
  aligned := h.aligned

theorem set (h : Allocated rs core core' n) (hrd : rd ∈ rs) (hhp : rd ≠ .hp) :
    Allocated rs core (core'.set rd w) n := by
  have hpointer : (core'.set rd w).get .hp = core'.get .hp := Core.get_set_of_ne hhp.symm
  refine ⟨fun rd' hrd' => ?_, h.below, fun a ha => h.above a (by rwa [hpointer] at ha), ?_, ?_⟩
  · have hne : rd' ≠ rd := fun heq => hrd' (heq ▸ hrd)
    rw [Core.get_set_of_ne hne, h.registers rd' hrd']
  · rw [hpointer, h.pointer]
  · rw [hpointer, h.aligned]

theorem extended (h : Allocated rs core core' n) : Extends core core' :=
  ⟨h.below, by rw [h.pointer]; exact Nat.le_add_right _ _⟩

end Allocated

section Conversions

variable {L : Layout} {lines : List Line} {start : Hart} {core core' core₀ : Core} {r : Region} {elem : Scalar}
  {items rest : List Value} {u v : Value} {w : Word} {b : Bool} {i k k' m n code : Nat} {s t : String} {xs : List UInt8}
  {conversion : Routine} {top place done : Label}

theorem OnlySets.allocated {rs : List Register} (h : OnlySets rs core core') (hhp : .hp ∉ rs)
    (haligned : (core.get .hp).toNat % 4 = 0) : Allocated rs core core' 0 where
  registers := h.registers
  below a _ := congrFun h.memory a
  above a _ := congrFun h.memory a
  pointer := congrArg BitVec.toNat (h.registers .hp hhp)
  aligned := by rw [h.registers .hp hhp, haligned]

theorem Wrote.allocated (h : Wrote core core' xs) :
    Allocated (.hp :: .ra :: scratch) core core' (4 * (xs.length / 4 + 1)) :=
  ⟨h.registers, h.below, h.above, h.pointer, h.aligned⟩

theorem Returned.allocated (h : Returned core core' s) : Allocated (.hp :: .ra :: scratch) core core' (textSize s) :=
  (returned_iff.mp h).allocated

theorem Returned.textAt (h : Returned core core' s) : TextAt core' (core'.get .a0) s := by
  rw [h.address]
  exact h.text

/-! Elements -/

theorem onlySets_boolToString (hlinked : Linked L lines) (hcall : lines[m]? = some (.jal Routine.boolToString.label))
    (hlength : m + 1 < lines.length) (hg : Reaches L lines start ⟨core, m⟩) (hb : core.get .a0 = wordOf (.bool b)) :
    ∃ core', Reaches L lines start ⟨core', m + 1⟩ ∧ OnlySets [.ra, .t0, .a0] core core' ∧
      core'.get .a0 = L.data (if b then FixedString.trueText else .falseText).label := by
  apply hlinked.returns hcall hlength hg
  intro i j hc hret hg
  have hc : CodeAt lines i Routine.boolToStringBody j := hc
  simp only [Routine.boolToStringBody, codeAt_instruction, codeAt_label, codeAt_nil] at hc
  obtain ⟨htrue, hbnez, hfalse, hdone, hmv, rfl⟩ := hc
  let core₀ := core.set .ra (L.code (m + 1))
  let core₁ := core₀.set .t0 (L.data FixedString.trueText.label)
  have h₁ : OnlySets [.ra, .t0, .a0] core core₁ := ((OnlySets.refl core).set (by decide)).set (by decide)
  have hb₁ : core₁.get .a0 = wordOf (.bool b) := hb
  have hg₁ := (hg.step (step_instruction htrue rfl)).branchZero hbnez hdone (hlinked.unique _)
  rw [hb₁] at hg₁
  cases b with
  | true =>
    rw [if_pos (by decide)] at hg₁
    exact ⟨_, _, (hg₁.label hdone).step (step_instruction hmv rfl), hret, rfl, h₁.set (by decide), rfl⟩
  | false =>
    rw [if_neg (by decide)] at hg₁
    have hg₂ := ((hg₁.step (step_instruction hfalse rfl)).label hdone).step (step_instruction hmv rfl)
    exact ⟨_, _, hg₂, hret, rfl, (h₁.set (by decide)).set (by decide), rfl⟩

def conversionLines : List Line :=
  Routine.convertElement 1 .intToString ++ (Routine.convertElement 2 .floatToString ++
    (Routine.convertElement 3 .boolToString ++ Routine.convertElement 4 .charToString))

def conversionSize (v : Value) : Nat :=
  match v with
  | .int _ | .char _ => textSize v.display
  | _ => 0

theorem Reaches.passConversion (hunique : ∀ l, labelCount l lines ≤ 1)
    (hc : CodeAt lines k (Routine.convertElement code conversion) k') (hcode : core.get .s3 ≠ .ofInt 32 code)
    (hg : Reaches L lines start ⟨core.set .t1 w, k⟩) : Reaches L lines start ⟨core.set .t1 (.ofInt 32 code), k'⟩ := by
  simp only [Routine.convertElement, codeAt_instruction, codeAt_label, codeAt_nil] at hc
  obtain ⟨hli, hbne, -, -, hskip, rfl⟩ := hc
  have hg₁ := (hg.step (step_instruction hli rfl)).branch hbne hskip (hunique _)
  rw [Core.set_set, Core.get_set_of_ne (by decide), Core.get_set (by decide), branchTaken,
    if_pos (by simpa using hcode)] at hg₁
  exact hg₁.label hskip

theorem Reaches.takeConversion (hunique : ∀ l, labelCount l lines ≤ 1)
    (hc : CodeAt lines k (Routine.convertElement code conversion) k') (hcode : core.get .s3 = .ofInt 32 code)
    (hg : Reaches L lines start ⟨core.set .t1 w, k⟩) :
    Reaches L lines start ⟨core.set .t1 (.ofInt 32 code), k + 2⟩ ∧ lines[k + 2]? = some (.jal conversion.label) ∧
      lines[k + 3]? = some (.j (Routine.arrayJoin.place "append")) := by
  simp only [Routine.convertElement, codeAt_instruction, codeAt_label, codeAt_nil] at hc
  obtain ⟨hli, hbne, hcall, hj, hskip, -⟩ := hc
  have hg₁ := (hg.step (step_instruction hli rfl)).branch hbne hskip (hunique _)
  rw [Core.set_set, Core.get_set_of_ne (by decide), Core.get_set (by decide), branchTaken,
    if_neg (by simpa using hcode)] at hg₁
  exact ⟨hg₁, hcall, hj⟩

theorem Reaches.converted (hlinked : Linked L lines) (hc : CodeAt lines k conversionLines k')
    (happend : lines[k']? = some (.label (Routine.arrayJoin.place "append")))
    (hcode : core.get .s3 = .ofInt 32 (elementCode elem))
    (hfixed : FixedTexts L core)
    (hu : ElementAt core (core.get .a0) elem u) (hspells : SpellsRight u) (haligned : (core.get .hp).toNat % 4 = 0)
    (hroom : (core.get .hp).toNat + conversionSize u < 2 ^ 32)
    (hhalf : elem = .int → (core.get .hp).toNat + conversionSize u ≤ 2 ^ 31 ∨ 2 ^ 31 ≤ (core.get .hp).toNat)
    (hg : Reaches L lines start ⟨core, k⟩) :
    ∃ core', Reaches L lines start ⟨core', k'⟩ ∧
      Allocated (.hp :: .ra :: scratch) core core' (conversionSize u) ∧ TextAt core' (core'.get .a0) u.display := by
  have hunique := hlinked.unique
  obtain ⟨k₁, hint, hc⟩ := codeAt_append.mp hc
  obtain ⟨k₂, hfloat, hc⟩ := codeAt_append.mp hc
  obtain ⟨k₃, hbool, hchar⟩ := codeAt_append.mp hc
  have hset (w : Word) : Allocated (.hp :: .ra :: scratch) core (core.set .t1 w) 0 :=
    (Allocated.refl haligned).set (by decide) (by decide)
  have hne {n : Nat} (hn : BitVec.ofInt 32 (elementCode elem) ≠ .ofInt 32 n) : core.get .s3 ≠ .ofInt 32 n := by
    rwa [hcode]
  rw [← Core.set_get (c := core) (r := .t1) (by decide)] at hg
  cases hu with
  | @int n hw =>
    obtain ⟨hg₁, hcall, hj⟩ := hg.takeConversion hunique hint hcode
    obtain ⟨core', hg', h'⟩ := returned_intToString hlinked hcall (List.getElem?_eq_some_iff.mp hj).1 hg₁ hw haligned
      hroom (hhalf rfl)
    refine ⟨core', hg'.jump hj happend (hunique _), ?_, h'.textAt⟩
    rw [← Nat.zero_add (conversionSize _)]
    exact (hset 1).trans h'.allocated
  | @bool b hw =>
    have hg₂ := (hg.passConversion hunique hint (hne (by decide))).passConversion hunique hfloat (hne (by decide))
    obtain ⟨hg₃, hcall, hj⟩ := hg₂.takeConversion hunique hbool hcode
    obtain ⟨core', hg', h', hresult⟩ := onlySets_boolToString hlinked hcall (List.getElem?_eq_some_iff.mp hj).1 hg₃ hw
    have hall : Allocated (.hp :: .ra :: scratch) core core' 0 :=
      (hset 3).trans ((h'.allocated (by decide) haligned).mono (by decide))
    have hdisplay : (Value.bool b).display = content (if b then .trueText else .falseText) := by
      cases b <;> decide +kernel
    refine ⟨core', hg'.jump hj happend (hunique _), hall, ?_⟩
    rw [hresult, hdisplay]
    exact hall.extended.textAt (hfixed _)
  | @char c hw =>
    have hroom₄ : (core.get .hp).toNat + 4 < 2 ^ 32 := by
      have hsize : conversionSize (.char c) = 4 * ((bytes c.toString).length / 4 + 1) := rfl
      omega
    have hg₂ := (hg.passConversion hunique hint (hne (by decide))).passConversion hunique hfloat (hne (by decide))
    obtain ⟨hg₄, hcall, hj⟩ := (hg₂.passConversion hunique hbool (hne (by decide))).takeConversion hunique hchar hcode
    obtain ⟨core', hg', h'⟩ := wrote_charToString hlinked hcall (List.getElem?_eq_some_iff.mp hj).1 hg₄ haligned hroom₄
    have hlow : lowBytes ((core.set .t1 4).get .a0) = bytes c.toString := by
      rw [Core.get_set_of_ne (by decide), hw, bytes_toString_char]
      exact lowBytes_eq_iff.mpr hspells
    have h' := returned_iff.mpr (hlow ▸ h')
    refine ⟨core', hg'.jump hj happend (hunique _), ?_, h'.textAt⟩
    rw [← Nat.zero_add (conversionSize _)]
    exact (hset 4).trans h'.allocated
  | @text s hs =>
    have hg₂ := (hg.passConversion hunique hint (hne (by decide))).passConversion hunique hfloat (hne (by decide))
    have hg₄ := (hg₂.passConversion hunique hbool (hne (by decide))).passConversion hunique hchar (hne (by decide))
    exact ⟨_, hg₄, hset _, (hset _).extended.textAt hs⟩

/-! A round of the loop -/

def joinFrame : List Register :=
  [.ra, .s2, .s3, .s4, .s5]

def joinStart : List Line :=
  [.mv .s2 .a0, .mv .s3 .a1, .li .s4 0, .la .s5 FixedString.emptyText.label]

def commaLines (top place done : Label) : List Line :=
  [.label top, .lw .t0 (-wordBytes) .s2, .bge .s4 .t0 done, .beqz .s4 place] ++
    ([.mv .a0 .s5, .la .a1 FixedString.comma.label, .jal Routine.concatString.label, .mv .s5 .a0] ++
      [.label place, .slli .t0 .s4 2, .add .t0 .s2 .t0, .lw .a0 0 .t0])

def appendLines (top : Label) : List Line :=
  [.label (Routine.arrayJoin.place "append"), .mv .a1 .a0, .mv .a0 .s5, .jal Routine.concatString.label, .mv .s5 .a0,
    .addi .s4 .s4 1, .j top]

def joinLines : List Line :=
  joinStart ++
    (commaLines (Routine.arrayJoin.place "loop") (Routine.arrayJoin.place "elem") (Routine.arrayJoin.place "done") ++
      (conversionLines ++ (appendLines (Routine.arrayJoin.place "loop") ++
        [.label (Routine.arrayJoin.place "done"), .mv .a0 .s5])))

theorem arrayJoinBody_eq : Routine.arrayJoinBody = enterLines joinFrame ++ (joinLines ++ leaveLines joinFrame) :=
  rfl

structure Joining (core : Core) (r : Region) (elem : Scalar) (i : Nat) (s : String) : Prop where
  address : core.get .s2 = r.address
  code : core.get .s3 = .ofInt 32 (elementCode elem)
  position : core.get .s4 = .ofNat 32 i
  text : TextAt core (core.get .s5) s

theorem Reaches.appendedText (hlinked : Linked L lines) (hcall : lines[k]? = some (.jal Routine.concatString.label))
    (hmv : lines[k + 1]? = some (.mv .s5 .a0)) (hs : TextAt core (core.get .a0) s) (ht : TextAt core (core.get .a1) t)
    (haligned : (core.get .hp).toNat % 4 = 0) (hroom : (core.get .hp).toNat + textSize (s ++ t) < 2 ^ 32)
    (hg : Reaches L lines start ⟨core, k⟩) :
    ∃ core', Reaches L lines start ⟨core', k + 2⟩ ∧
      Allocated (.s5 :: .hp :: .ra :: scratch) core core' (textSize (s ++ t)) ∧
      TextAt core' (core'.get .s5) (s ++ t) := by
  obtain ⟨core₁, hg₁, h₁⟩ := returned_concatString hlinked hcall (List.getElem?_eq_some_iff.mp hmv).1 hg hs ht haligned
    hroom
  refine ⟨_, hg₁.step (step_instruction hmv rfl), (h₁.allocated.mono (by decide)).set (by decide) (by decide), ?_⟩
  rw [Core.get_set (by decide)]
  exact h₁.textAt.set (by decide)

theorem Joining.of_allocated (h : Joining core r elem i s)
    (hall : Allocated (.hp :: .ra :: scratch) core core' n) : Joining core' r elem i s where
  address := (hall.registers .s2 (by decide)).trans h.address
  code := (hall.registers .s3 (by decide)).trans h.code
  position := (hall.registers .s4 (by decide)).trans h.position
  text := by
    rw [hall.registers .s5 (by decide)]
    exact hall.extended.textAt h.text

theorem runLines_joinElement (hs₂ : core.get .s2 = r.address) (hs₄ : core.get .s4 = .ofNat 32 i) :
    runLines L core [.slli .t0 .s4 2, .add .t0 .s2 .t0, .lw .a0 0 .t0] =
      some ((core.set .t0 (r.element i)).set .a0 (core.loadWord (r.element i))) := by
  simp [runLine, effect, immediateOp, registerOp, Core.get_set, Core.get_set_of_ne, Core.loadWord_set, hs₂, hs₄,
    r.address_add_shift]

/--
Behind the last element the loop is left. Before it a comma is appended, but for the first element, and the element is
loaded.
-/
theorem Reaches.appendedComma (hlinked : Linked L lines) (hc : CodeAt lines k (commaLines top place done) k')
    (hdone : lines[m]? = some (.label done)) (harray : ArrayAt core r elem items)
    (hcomma : TextAt core (L.data FixedString.comma.label) ",") (h : Joining core r elem i s) (hi : i ≤ r.length)
    (haligned : (core.get .hp).toNat % 4 = 0)
    (hroom : i < r.length → (core.get .hp).toNat + (if i = 0 then 0 else textSize (s ++ ",")) < 2 ^ 32)
    (hg : Reaches L lines start ⟨core, k⟩) :
    if i < r.length then
      ∃ core', Reaches L lines start ⟨core', k'⟩ ∧
        Allocated (.s5 :: .hp :: .ra :: scratch) core core' (if i = 0 then 0 else textSize (s ++ ",")) ∧
        Joining core' r elem i (s ++ if i = 0 then "" else ",") ∧
        core'.get .a0 = core'.loadWord (r.element i)
    else ∃ w, Reaches L lines start ⟨core.set .t0 w, m⟩ := by
  have hunique := hlinked.unique
  obtain ⟨j, hhead, hc⟩ := codeAt_append.mp hc
  obtain ⟨j', hconcat, helement⟩ := codeAt_append.mp hc
  simp only [codeAt_instruction, codeAt_label, codeAt_nil] at hhead hconcat
  obtain ⟨htop, hload, hbge, hbeqz, rfl⟩ := hhead
  obtain ⟨hmv, hla, hcall, hmv', hend⟩ := hconcat
  obtain ⟨hplace, helement⟩ := codeAt_label.mp helement
  let core₁ := core.set .t0 (.ofNat 32 r.length)
  have hg₁ : Reaches L lines start ⟨core₁, k + 1 + 1⟩ := by
    apply (hg.label htop).step (step_instruction hload _)
    rw [effect, h.address, Region.header_eq, harray.header]
  have hg₂ := hg₁.branch hbge hdone (hunique _)
  rw [Core.get_set_of_ne (by decide), Core.get_set (by decide), h.position, branchTaken,
    harray.fits.slt_length hi] at hg₂
  split
  · next hlt =>
    have hroom := hroom hlt
    -- The element is loaded in the same way, be there a comma before it or not.
    have hfinish {core₂ : Core} {n : Nat} {t : String} (hall : Allocated (.s5 :: .hp :: .ra :: scratch) core core₂ n)
        (ht : TextAt core₂ (core₂.get .s5) t) (hg : Reaches L lines start ⟨core₂, j'⟩) :
        ∃ core', Reaches L lines start ⟨core', k'⟩ ∧ Allocated (.s5 :: .hp :: .ra :: scratch) core core' n ∧
          Joining core' r elem i t ∧ core'.get .a0 = core'.loadWord (r.element i) := by
      have hs₂ : core₂.get .s2 = r.address := (hall.registers .s2 (by decide)).trans h.address
      have hs₃ : core₂.get .s3 = .ofInt 32 (elementCode elem) := (hall.registers .s3 (by decide)).trans h.code
      have hs₄ : core₂.get .s4 = .ofNat 32 i := (hall.registers .s4 (by decide)).trans h.position
      have hgrown : Extends core₂ ((core₂.set .t0 (r.element i)).set .a0 (core₂.loadWord (r.element i))) :=
        ((Extends.refl core₂).set (by decide)).set (by decide)
      exact ⟨_, (hg.label hplace).straight helement (runLines_joinElement hs₂ hs₄),
        (hall.set (by decide) (by decide)).set (by decide) (by decide), ⟨hs₂, hs₃, hs₄, hgrown.textAt ht⟩, rfl⟩
    rw [decide_eq_true hlt, if_neg (by decide)] at hg₂
    have hg₃ := hg₂.branchZero hbeqz hplace (hunique _)
    have hposition : core₁.get .s4 = .ofNat 32 i := h.position
    simp only [hposition, zeroBranchTaken, harray.fits.ofNat_eq_zero hi, decide_eq_true_eq] at hg₃
    have h₁ : Allocated (.s5 :: .hp :: .ra :: scratch) core core₁ 0 :=
      (Allocated.refl haligned).set (by decide) (by decide)
    by_cases hfirst : i = 0
    · simp only [if_pos hfirst, String.append_empty] at hg₃ ⊢
      exact hfinish h₁ (h₁.extended.textAt h.text) hg₃
    · simp only [if_neg hfirst] at hroom hg₃ ⊢
      let core₂ := (core₁.set .a0 (core.get .s5)).set .a1 (L.data FixedString.comma.label)
      have h₂ : Allocated (.s5 :: .hp :: .ra :: scratch) core core₂ 0 :=
        (h₁.set (by decide) (by decide)).set (by decide) (by decide)
      have hg₄ : Reaches L lines start ⟨core₂, k + 1 + 1 + 1 + 1 + 1 + 1⟩ :=
        (hg₃.step (step_instruction hmv rfl)).step (step_instruction hla rfl)
      obtain ⟨core₃, hg₅, h₃, ht⟩ := hg₄.appendedText hlinked hcall hmv' (h₂.extended.textAt h.text)
        (h₂.extended.textAt hcomma) haligned hroom
      have h₃ := h₂.trans h₃
      rw [Nat.zero_add] at h₃
      exact hfinish h₃ ht (hend ▸ hg₅)
  · next hge =>
    rw [decide_eq_false hge, if_pos (by decide)] at hg₂
    exact ⟨_, hg₂⟩

def roundSize (items : List Value) (i : Nat) (u : Value) : Nat :=
  (if i = 0 then 0 else textSize (joinedText "," items i ++ ",")) + conversionSize u +
    textSize (joinedText "," items (i + 1))

theorem Reaches.joinedRound {k₁ k₂ : Nat} (hlinked : Linked L lines)
    (hhead : CodeAt lines k (commaLines top place done) k₁) (hconvert : CodeAt lines k₁ conversionLines k₂)
    (happend : CodeAt lines k₂ (appendLines top) k') (hdone : lines[m]? = some (.label done))
    (harray : ArrayAt core r elem items)
    (hfixed : FixedTexts L core) (hu : items[i]? = some u)
    (hspells : SpellsRight u) (h : Joining core r elem i (joinedText "," items i))
    (haligned : (core.get .hp).toNat % 4 = 0) (hroom : (core.get .hp).toNat + roundSize items i u < 2 ^ 32)
    (hhalf : elem = .int → (core.get .hp).toNat + roundSize items i u ≤ 2 ^ 31 ∨ 2 ^ 31 ≤ (core.get .hp).toNat)
    (hg : Reaches L lines start ⟨core, k⟩) :
    ∃ core', Reaches L lines start ⟨core', k⟩ ∧
      Allocated (.s4 :: .s5 :: .hp :: .ra :: scratch) core core' (roundSize items i u) ∧
      Joining core' r elem (i + 1) (joinedText "," items (i + 1)) := by
  have hunique := hlinked.unique
  have htop : lines[k]? = some (.label top) := by
    unfold commaLines at hhead
    exact (codeAt_label.mp hhead).1
  have hlt := harray.lt_of_getElem? hu
  simp only [appendLines, codeAt_instruction, codeAt_label, codeAt_nil] at happend
  obtain ⟨hlabel, hmv, hmv', hcall, hkeep, haddi, hj, rfl⟩ := happend
  rw [joinedText_succ hu]
  unfold roundSize at hroom hhalf ⊢
  rw [joinedText_succ hu] at hroom hhalf ⊢
  generalize hcomma : (if i = 0 then 0 else textSize (joinedText "," items i ++ ",")) = n at hroom hhalf ⊢
  have hcontent : content .comma = "," := by decide +kernel
  have hg₁ := hg.appendedComma hlinked hhead hdone harray (hcontent ▸ hfixed .comma) h (Nat.le_of_lt hlt) haligned
    fun _ => by rw [hcomma]; omega
  rw [if_pos hlt] at hg₁
  obtain ⟨core₁, hg₁, h₁, hjoining₁, ha₀⟩ := hg₁
  rw [hcomma] at h₁
  have hu₁ : ElementAt core₁ (core₁.get .a0) elem u := by
    rw [ha₀]
    exact (harray.of_extends h₁.extended).elements i u hu
  have hpointer₁ := h₁.pointer
  obtain ⟨core₂, hg₂, h₂, ht⟩ := hg₁.converted hlinked hconvert hlabel hjoining₁.code
    (hfixed.of_extends h₁.extended) hu₁ hspells h₁.aligned (by omega) fun helem => by
      have hhalf := hhalf helem
      omega
  have hjoining₂ := hjoining₁.of_allocated h₂
  have hpointer₂ := h₂.pointer
  let core₃ := (core₂.set .a1 (core₂.get .a0)).set .a0 (core₂.get .s5)
  have hg₃ : Reaches L lines start ⟨core₃, k₂ + 1 + 1 + 1⟩ :=
    ((hg₂.label hlabel).step (step_instruction hmv rfl)).step (step_instruction hmv' rfl)
  have h₃ : Allocated (.hp :: .ra :: scratch) core₂ core₃ 0 :=
    ((Allocated.refl h₂.aligned).set (by decide) (by decide)).set (by decide) (by decide)
  have hhp₃ : core₃.get .hp = core₂.get .hp := rfl
  obtain ⟨core₄, hg₄, h₄, ht₄⟩ := hg₃.appendedText hlinked hcall hkeep (h₃.extended.textAt hjoining₂.text)
    (h₃.extended.textAt ht) h₂.aligned (by rw [hhp₃]; omega)
  generalize textSize _ = n' at h₄ ⊢
  have h₄ : Allocated (.s5 :: .hp :: .ra :: scratch) core₂ core₄ n' := by
    rw [← Nat.zero_add n']
    exact (h₃.mono (by decide)).trans h₄
  have hall : Allocated (.s5 :: .hp :: .ra :: scratch) core core₄ (n + conversionSize u + n') :=
    (h₁.trans (h₂.mono (by decide))).trans h₄
  let core₅ := core₄.set .s4 (core₄.get .s4 + 1)
  have hg₅ : Reaches L lines start ⟨core₅, k⟩ := (hg₄.step (step_instruction haddi rfl)).jump hj htop (hunique _)
  refine ⟨core₅, hg₅, (hall.mono (by decide)).set (by decide) (by decide), ?_, ?_, ?_, ?_⟩
  · exact (hall.registers .s2 (by decide)).trans h.address
  · exact (hall.registers .s3 (by decide)).trans h.code
  · rw [Core.get_set (by decide), hall.registers .s4 (by decide), position_succ h.position]
  · exact ht₄.set (by decide)

/-! All rounds -/

def joinedSize (items : List Value) : Nat → Nat
  | 0 => 0
  | n + 1 => joinedSize items n + items[n]?.elim 0 (roundSize items n)

theorem joinedSize_succ (hu : items[i]? = some u) :
    joinedSize items (i + 1) = joinedSize items i + roundSize items i u := by
  rw [joinedSize, hu, Option.elim_some]

theorem joinedSize_le (h : i ≤ n) : joinedSize items i ≤ joinedSize items n :=
  monotone_nat_of_le_succ (fun _ => Nat.le_add_right _ _) h

theorem Reaches.joinedItems {k₁ k₂ k₃ : Nat} (hlinked : Linked L lines)
    (hhead : CodeAt lines k (commaLines top place done) k₁) (hconvert : CodeAt lines k₁ conversionLines k₂)
    (happend : CodeAt lines k₂ (appendLines top) k₃) (hdone : lines[m]? = some (.label done))
    (harray : ArrayAt core₀ r elem items)
    (hfixed : FixedTexts L core₀)
    (hspells : ∀ v ∈ items, SpellsRight v) (hi : i ≤ r.length) (hrest : items.drop i = rest)
    (hroom : (core₀.get .hp).toNat + joinedSize items items.length < 2 ^ 32)
    (hhalf : elem = .int →
      (core₀.get .hp).toNat + joinedSize items items.length ≤ 2 ^ 31 ∨ 2 ^ 31 ≤ (core₀.get .hp).toNat)
    (h₀ : Allocated (.s4 :: .s5 :: .hp :: .ra :: scratch) core₀ core (joinedSize items i))
    (h : Joining core r elem i (joinedText "," items i)) (hg : Reaches L lines start ⟨core, k⟩) :
    ∃ core', Reaches L lines start ⟨core', m⟩ ∧
      Allocated (.s4 :: .s5 :: .hp :: .ra :: scratch) core₀ core' (joinedSize items items.length) ∧
      TextAt core' (core'.get .s5) (",".intercalate (items.map Value.display)) := by
  have hpointer := h₀.pointer
  induction rest generalizing core i with
  | nil =>
    have hge : items.length ≤ i := List.drop_eq_nil_iff.mp hrest
    obtain rfl : i = items.length := Nat.le_antisymm (harray.length ▸ hi) hge
    have hlt : ¬items.length < r.length := by
      rw [harray.length]
      exact Nat.lt_irrefl _
    have hcontent : content .comma = "," := by decide +kernel
    have hg₁ := hg.appendedComma hlinked hhead hdone (harray.of_extends h₀.extended)
      (h₀.extended.textAt (hcontent ▸ hfixed .comma)) h hi h₀.aligned fun h => absurd h hlt
    rw [if_neg hlt] at hg₁
    obtain ⟨w, hg₁⟩ := hg₁
    rw [joinedText_length] at h
    exact ⟨_, hg₁, h₀.set (by decide) (by decide), h.text.set (by decide)⟩
  | cons u rest ih =>
    obtain ⟨hlt, hu, hrest'⟩ := harray.of_drop hrest
    have hle : joinedSize items (i + 1) ≤ joinedSize items items.length := by
      apply joinedSize_le
      rw [harray.length]
      exact hlt
    rw [joinedSize_succ hu] at hle
    obtain ⟨core₁, hg₁, h₁, hjoining⟩ := hg.joinedRound hlinked hhead hconvert happend hdone
      (harray.of_extends h₀.extended) (hfixed.of_extends h₀.extended) hu
      (hspells u (List.mem_of_getElem? hu)) h h₀.aligned (by omega) fun helem => by
        have hhalf := hhalf helem
        omega
    have hall := h₀.trans h₁
    rw [← joinedSize_succ hu] at hall
    exact ih hlt hrest' hall hjoining hg₁ hall.pointer

theorem runLines_joinStart (ha₀ : core.get .a0 = r.address) (ha₁ : core.get .a1 = w) :
    runLines L core joinStart = some ((((core.set .s2 r.address).set .s3 w).set .s4 0).set .s5
      (L.data FixedString.emptyText.label)) := by
  simp [joinStart, runLine, effect, moveOp, Core.get_set_of_ne, ha₀, ha₁]

/--
The lines in the frame leave the text of the joined elements. They change the registers that the frame holds.
-/
theorem Reaches.joinedLines (hlinked : Linked L lines) (hc : CodeAt lines k joinLines k')
    (haddress : core.get .a0 = r.address) (hcode : core.get .a1 = .ofInt 32 (elementCode elem))
    (harray : ArrayAt core r elem items) (hfixed : FixedTexts L core) (hspells : ∀ v ∈ items, SpellsRight v)
    (haligned : (core.get .hp).toNat % 4 = 0)
    (hroom : (core.get .hp).toNat + joinedSize items items.length < 2 ^ 32)
    (hhalf : elem = .int →
      (core.get .hp).toNat + joinedSize items items.length ≤ 2 ^ 31 ∨ 2 ^ 31 ≤ (core.get .hp).toNat)
    (hg : Reaches L lines start ⟨core, k⟩) :
    ∃ core', Reaches L lines start ⟨core', k'⟩ ∧
      Allocated (joinFrame ++ .hp :: scratch) core core' (joinedSize items items.length) ∧
      TextAt core' (core'.get .a0) (",".intercalate (items.map Value.display)) := by
  obtain ⟨k₁, hstart, hc⟩ := codeAt_append.mp hc
  obtain ⟨k₂, hhead, hc⟩ := codeAt_append.mp hc
  obtain ⟨k₃, hconvert, hc⟩ := codeAt_append.mp hc
  obtain ⟨k₄, happend, hc⟩ := codeAt_append.mp hc
  simp only [codeAt_instruction, codeAt_label, codeAt_nil] at hc
  obtain ⟨hdone, hmv, rfl⟩ := hc
  let core₁ := (((core.set .s2 r.address).set .s3 (.ofInt 32 (elementCode elem))).set .s4 0).set .s5
    (L.data FixedString.emptyText.label)
  have h₁ : Allocated (joinFrame ++ .hp :: scratch) core core₁ 0 :=
    ((((Allocated.refl haligned).set (by decide) (by decide)).set (by decide) (by decide)).set (by decide)
      (by decide)).set (by decide) (by decide)
  have hcontent : content .emptyText = "" := by decide +kernel
  have hempty : TextAt core₁ (L.data FixedString.emptyText.label) "" :=
    hcontent ▸ hfixed.of_extends h₁.extended .emptyText
  have hhp₁ : core₁.get .hp = core.get .hp := rfl
  obtain ⟨core₂, hg₂, h₂, ht⟩ := (hg.straight hstart (runLines_joinStart haddress hcode)).joinedItems hlinked hhead
    hconvert happend hdone (harray.of_extends h₁.extended) (hfixed.of_extends h₁.extended) hspells (Nat.zero_le _) rfl
    (by rwa [hhp₁]) (by rwa [hhp₁]) (.refl h₁.aligned) ⟨rfl, rfl, rfl, hempty⟩
  have hall := h₁.trans (h₂.mono (by decide))
  rw [Nat.zero_add] at hall
  refine ⟨_, (hg₂.label hdone).step (step_instruction hmv rfl), hall.set (by decide) (by decide), ?_⟩
  rw [Core.get_set (by decide)]
  exact ht.set (by decide)

/--
The routine returned a new text. It took some bytes of the heap, and kept the stack.
-/
structure Joined (core core' : Core) (s : String) (n : Nat) : Prop where
  text : TextAt core' (core'.get .a0) s
  below : ∀ a : Word, a.toNat < (core.get .hp).toNat → core'.memory a = core.memory a
  above : ∀ a : Word, (core.get .sp).toNat ≤ a.toNat → core'.memory a = core.memory a
  pointer : (core'.get .hp).toNat = (core.get .hp).toNat + n
  aligned : (core'.get .hp).toNat % 4 = 0
  registers : ∀ rd, rd ∉ .hp :: .ra :: scratch → core'.get rd = core.get rd

theorem joined_arrayJoin (hlinked : Linked L lines) (hcall : lines[m]? = some (.jal Routine.arrayJoin.label))
    (hlength : m + 1 < lines.length) (hg : Reaches L lines start ⟨core, m⟩) (haddress : core.get .a0 = r.address)
    (hcode : core.get .a1 = .ofInt 32 (elementCode elem)) (harray : ArrayAt core r elem items)
    (hfixed : FixedTexts L core)
    (hspells : ∀ v ∈ items, SpellsRight v) (haligned : (core.get .hp).toNat % 4 = 0)
    (hroom : (core.get .hp).toNat + joinedSize items items.length + 20 ≤ (core.get .sp).toNat)
    (hhalf : elem = .int →
      (core.get .hp).toNat + joinedSize items items.length ≤ 2 ^ 31 ∨ 2 ^ 31 ≤ (core.get .hp).toNat) :
    ∃ core', Reaches L lines start ⟨core', m + 1⟩ ∧
      Joined core core' (",".intercalate (items.map Value.display)) (joinedSize items items.length) := by
  apply hlinked.returns hcall hlength hg
  intro i j hc hret hg
  have hc : CodeAt lines i Routine.arrayJoinBody j := hc
  rw [arrayJoinBody_eq] at hc
  obtain ⟨i₁, henter, hc⟩ := codeAt_append.mp hc
  obtain ⟨i₂, hlines, hleave⟩ := codeAt_append.mp hc
  let core₀ := core.set .ra (L.code (m + 1))
  have hsp₀ : 20 ≤ (core₀.get .sp).toNat := Nat.le_trans (Nat.le_add_left _ _) hroom
  obtain ⟨core₁, hg₁, hframe, hsame, hmemory⟩ := hg.enteredFrame (fun _ => 0) (by exact hsp₀) (by decide) henter
  have hsp₁ : (core₁.get .sp).toNat = (core.get .sp).toNat - 20 := by
    have hpointer : core₁.get .sp = core.get .sp - .ofNat 32 20 := hframe.pointer
    rw [hpointer]
    bv_omega
  have hhp₁ : core₁.get .hp = core.get .hp := hsame .hp (by decide)
  have hgrown : Extends core core₁ :=
    ⟨fun x hx => hmemory x (.inl (by omega)), Nat.le_of_eq (congrArg BitVec.toNat hhp₁.symm)⟩
  obtain ⟨core₂, hg₂, h₂, ht⟩ := hg₁.joinedLines hlinked hlines ((hsame .a0 (by decide)).trans haddress)
    ((hsame .a1 (by decide)).trans hcode) (harray.of_extends hgrown) (hfixed.of_extends hgrown) hspells
    (hhp₁ ▸ haligned) (by rw [hhp₁]; omega) (by rwa [hhp₁])
  have hpointer := h₂.pointer
  rw [hhp₁] at hpointer
  -- The frame lies above the heap.
  have hkept (x : Word) (hx : (core₁.get .sp).toNat ≤ x.toNat) : core₂.memory x = core₁.memory x :=
    h₂.above x (by omega)
  have hbound : (core₁.get .sp).toNat + 20 < 2 ^ 32 := by omega
  have hsp₂ : core₂.get .sp = core₁.get .sp := h₂.registers .sp (by decide)
  have hframe₂ : InFrame joinFrame ⟨core₀, fun _ => 0⟩ ⟨core₂, fun _ => 0⟩ := hframe.congr hsp₂ hbound hkept
  obtain ⟨core₃, hg₃, hmemory₃, hin, hout⟩ := hg₂.leftFrame hframe₂ (by decide) hleave
  have hhp₃ : core₃.get .hp = core₂.get .hp := hout .hp (by decide)
  have hmemory₃ : core₃.memory = core₂.memory := hmemory₃
  refine ⟨core₃, j, hg₃, hret, hin .ra (by decide), ?_, fun x hx => ?_, fun x hx => ?_, ?_, ?_, fun rd hrd => ?_⟩
  · rw [hout .a0 (by decide)]
    exact (Extends.of_memory hmemory₃ hhp₃).textAt ht
  · rw [hmemory₃]
    exact (h₂.below x (hhp₁ ▸ hx)).trans (hgrown.below x hx)
  · rw [hmemory₃]
    exact (hkept x (by omega)).trans (hmemory x (.inr hx))
  · rw [hhp₃, hpointer]
  · rw [hhp₃]
    exact h₂.aligned
  · have hra : core₀.get rd = core.get rd := Core.get_set_of_ne (ne_of_mem_of_not_mem (by decide) hrd).symm
    rw [← hra]
    by_cases hsaved : rd ∈ .sp :: joinFrame
    · exact hin rd hsaved
    · rw [hout rd hsaved, h₂.registers rd, hsame rd (List.ne_of_not_mem_cons hsaved)]
      simp only [List.mem_cons, List.mem_append, not_or] at hrd hsaved ⊢
      exact ⟨hsaved.2, hrd.1, hrd.2.2⟩

end Conversions

end Arbor.Machine
