import Arbor.Proofs.Decimal.Reader
import Arbor.Proofs.Machine.Strings

/-!
This module contains the run of the routine that reads an int. It reads the number at the start of a text, and knows
nothing of blanks and plus signs.
-/

namespace Arbor.Machine

open Assembly
open Decimal (digitsValue leadingInt startsInt)
open Lowering (labelCount)

structure Answered (core core' : Core) (w : Word) : Prop where
  result : core'.get .a0 = w
  changes : OnlySets (.ra :: scratch) core core'

/-! Digits -/

def signLines (digits : Label) : List Line :=
  [.li .t0 0, .li .t1 0, .lb .t2 0 .a0, .li .t3 (charCode '-'), .bne .t2 .t3 digits, .li .t1 1, .addi .a0 .a0 1]

def testLines (digits done : Label) : List Line :=
  [.label digits, .lb .t2 0 .a0, .li .t3 (charCode '0'), .blt .t2 .t3 done, .li .t3 (charCode '9'), .bgt .t2 .t3 done]

def valueLines : List Line :=
  [.addi .t2 .t2 (-48), .li .t3 10, .mul .t0 .t0 .t3, .add .t0 .t0 .t2, .addi .a0 .a0 1]

def readLines (digits done : Label) : List Line :=
  testLines digits done ++ valueLines ++ [.j digits, .label done]

theorem parseIntBody_eq : Routine.parseIntBody =
    signLines (Routine.parseInt.place "digits") ++
      readLines (Routine.parseInt.place "digits") (Routine.parseInt.place "int_done") ++
      [.beqz .t1 (Routine.parseInt.place "done"), .neg .t0 .t0, .label (Routine.parseInt.place "done"), .mv .a0 .t0] :=
  rfl

def IsDigitByte (b : BitVec 8) : Prop :=
  48 ≤ b.toNat ∧ b.toNat ≤ 57

instance : DecidablePred IsDigitByte :=
  fun b => inferInstanceAs (Decidable (48 ≤ b.toNat ∧ b.toNat ≤ 57))

/--
Bytes are compared as signed numbers. Those of no ASCII character are lower than all digits.
-/
theorem isDigitByte_iff (b : BitVec 8) : IsDigitByte b ↔
    (b.signExtend 32).slt (.ofInt 32 (charCode '0')) = false ∧
      (BitVec.ofInt 32 (charCode '9')).slt (b.signExtend 32) = false := by
  revert b
  decide +kernel

theorem signExtend_sub_of_isDigitByte (b : BitVec 8) :
    IsDigitByte b → b.signExtend 32 + .ofInt 32 (-48) = .ofNat 32 (b.toNat - '0'.toNat) := by
  revert b
  decide +kernel

/--
The first byte of a character is ASCII only if the character is, and then is the only one.
-/
theorem utf8EncodeChar_eq_cons (c : Char) : ∃ b rest, String.utf8EncodeChar c = b :: rest ∧
    (b.toNat < 128 ∨ c.val.toNat < 128 → b.toNat = c.val.toNat ∧ rest = []) := by
  by_cases hc : c.val.toNat < 128
  · exact ⟨_, [], utf8EncodeChar_of_ascii hc, fun _ => ⟨toNat_ofNat_of_ascii hc, rfl⟩⟩
  · cases henc : String.utf8EncodeChar c with
    | nil => exact absurd henc String.utf8EncodeChar_ne_nil
    | cons b rest =>
      refine ⟨b, rest, rfl, fun h => ?_⟩
      have hb : b.toNat < 128 := h.resolve_right hc
      have hval := toNat_val_of_mem_utf8EncodeChar hb (c := c) (by simp [henc])
      omega

theorem isDigit_iff (c : Char) : c.isDigit = true ↔ 48 ≤ c.val.toNat ∧ c.val.toNat ≤ 57 := by
  simp [Char.isDigit, UInt32.le_iff_toNat_le]

section Parsing

variable {L : Layout} {lines : List Line} {start : Hart} {core : Core} {s : String} {cs : List Char}
  {k k' m n : Nat} {top last : Label} {b : BitVec 8}

theorem Reaches.testDigit (hunique : ∀ l, labelCount l lines ≤ 1) (hc : CodeAt lines k (testLines top last) k')
    (hlast : lines[m]? = some (.label last)) (hb : core.memory (core.get .a0) = b)
    (hg : Reaches L lines start ⟨core, k⟩) :
    ∃ w, Reaches L lines start
      ⟨(core.set .t2 (b.signExtend 32)).set .t3 w, if IsDigitByte b then k' else m⟩ := by
  simp only [testLines, codeAt_instruction, codeAt_label, codeAt_nil] at hc
  obtain ⟨htop, hload, hli, hblt, hli', hbgt, rfl⟩ := hc
  have hg₁ : Reaches L lines start ⟨core.set .t2 (b.signExtend 32), k + 1 + 1⟩ := by
    apply (hg.label htop).step (step_instruction hload _)
    simp [effect, hb]
  have hg₂ := (hg₁.step (step_instruction hli rfl)).branch hblt hlast (hunique _)
  rw [Core.get_set_of_ne (by decide), Core.get_set (by decide), Core.get_set (by decide), branchTaken] at hg₂
  have hdigit := isDigitByte_iff b
  cases hlow : (b.signExtend 32).slt (.ofInt 32 (charCode '0')) with
  | true =>
    rw [hlow, if_pos rfl] at hg₂
    rw [hlow] at hdigit
    rw [if_neg fun h => Bool.noConfusion (hdigit.mp h).1]
    exact ⟨_, hg₂⟩
  | false =>
    rw [hlow, if_neg (by decide)] at hg₂
    have hg₃ := (hg₂.step (step_instruction hli' rfl)).branch hbgt hlast (hunique _)
    rw [Core.set_set, Core.get_set_of_ne (by decide), Core.get_set (by decide), Core.get_set (by decide),
      branchTaken] at hg₃
    cases hhigh : (BitVec.ofInt 32 (charCode '9')).slt (b.signExtend 32) with
    | true =>
      rw [hhigh, if_pos rfl] at hg₃
      rw [hhigh] at hdigit
      rw [if_neg fun h => Bool.noConfusion (hdigit.mp h).2]
      exact ⟨_, hg₃⟩
    | false =>
      rw [hhigh, if_neg (by decide)] at hg₃
      rw [if_pos (hdigit.mpr ⟨hlow, hhigh⟩)]
      exact ⟨_, hg₃⟩

theorem runLines_valueLines (hdigit : IsDigitByte b) (ht₂ : core.get .t2 = b.signExtend 32)
    (hn : core.get .t0 = .ofNat 32 n) :
    ∃ core', runLines L core valueLines = some core' ∧ OnlySets [.t0, .t2, .t3, .a0] core core' ∧
      core'.get .t0 = .ofNat 32 (n * 10 + (b.toNat - '0'.toNat)) ∧ core'.get .a0 = core.get .a0 + 1 := by
  have hvalue : core.get .t0 * BitVec.ofInt 32 10 + (core.get .t2 + .ofInt 32 (-48)) =
      .ofNat 32 (n * 10 + (b.toNat - '0'.toNat)) := by
    rw [hn, ht₂, signExtend_sub_of_isDigitByte b hdigit, BitVec.ofNat_add, BitVec.ofNat_mul]
    rfl
  refine ⟨_, rfl, ?_, hvalue, rfl⟩
  have h : OnlySets [.t0, .t2, .t3, .a0] core core := .refl core
  exact ((((h.set (by decide)).set (by decide)).set (by decide)).set (by decide)).set (by decide)

theorem Reaches.readDigits (hunique : ∀ l, labelCount l lines ≤ 1) (hc : CodeAt lines k (readLines top last) k')
    (hs : BytesAt core.memory (core.get .a0) (cs.flatMap String.utf8EncodeChar ++ [0]))
    (hn : core.get .t0 = .ofNat 32 n) (hg : Reaches L lines start ⟨core, k⟩) :
    ∃ core', Reaches L lines start ⟨core', k'⟩ ∧ OnlySets [.t0, .t2, .t3, .a0] core core' ∧
      core'.get .t0 = .ofNat 32 ((cs.takeWhile Char.isDigit).foldl (fun n c => n * 10 + (c.toNat - '0'.toNat)) n) := by
  obtain ⟨j, hc, hend⟩ := codeAt_append.mp hc
  obtain ⟨i, htest, hvalue⟩ := codeAt_append.mp hc
  simp only [codeAt_instruction, codeAt_label, codeAt_nil] at hend
  obtain ⟨hagain, hlast, rfl⟩ := hend
  have htop : lines[k]? = some (.label top) := (codeAt_label.mp htest).1
  have hset (core : Core) (v w : Word) : OnlySets [.t0, .t2, .t3, .a0] core ((core.set .t2 v).set .t3 w) :=
    ((OnlySets.refl core).set (by decide)).set (by decide)
  have hstop {core : Core} {b : BitVec 8} {n : Nat} (hb : core.memory (core.get .a0) = b) (hdigit : ¬IsDigitByte b)
      (hn : core.get .t0 = .ofNat 32 n) (hg : Reaches L lines start ⟨core, k⟩) :
      ∃ core', Reaches L lines start ⟨core', j + 1 + 1⟩ ∧ OnlySets [.t0, .t2, .t3, .a0] core core' ∧
        core'.get .t0 = .ofNat 32 n := by
    obtain ⟨w, hg₁⟩ := hg.testDigit hunique htest hlast hb
    rw [if_neg hdigit] at hg₁
    exact ⟨_, hg₁.label hlast, hset core _ _, hn⟩
  -- A character that is no ASCII character has bytes that are no digits, and the loop stops at the first of them.
  induction cs generalizing core n with
  | nil => exact hstop hs.1 (by decide) hn hg
  | cons c rest ih =>
    obtain ⟨b, more, henc, hfirst⟩ := utf8EncodeChar_eq_cons c
    rw [List.flatMap_cons, henc] at hs
    by_cases hdigit : c.isDigit = true
    · have hrange := (isDigit_iff c).mp hdigit
      obtain ⟨hbyte, rfl⟩ := hfirst (.inr (by omega))
      have hdigitByte : IsDigitByte b.toBitVec := by
        rw [← hbyte] at hrange
        exact hrange
      obtain ⟨w, hg₁⟩ := hg.testDigit hunique htest hlast hs.1
      rw [if_pos hdigitByte] at hg₁
      let core₁ := (core.set .t2 (b.toBitVec.signExtend 32)).set .t3 w
      have hn₁ : core₁.get .t0 = .ofNat 32 n := hn
      obtain ⟨core₂, hrun, h₂, hn₂, ha₀⟩ := runLines_valueLines (L := L) hdigitByte (by rfl) hn₁
      have hg₂ := (hg₁.straight hvalue hrun).jump hagain htop (hunique _)
      obtain ⟨core', hg', h', hn'⟩ := ih (by rw [h₂.memory, ha₀]; exact hs.2) hn₂ hg₂
      refine ⟨core', hg', ((hset core _ _).trans h₂).trans h', ?_⟩
      have hvalue : b.toBitVec.toNat = c.toNat := hbyte
      rw [List.takeWhile_cons_of_pos hdigit, List.foldl_cons, hn', hvalue]
    · rw [List.takeWhile_cons_of_neg hdigit]
      refine hstop hs.1 (fun hdigitByte => hdigit ((isDigit_iff c).mpr ?_)) hn hg
      have hlow : b.toNat ≤ 57 := hdigitByte.2
      rw [← (hfirst (.inl (by omega))).1]
      exact hdigitByte

theorem Reaches.readSign (hunique : ∀ l, labelCount l lines ≤ 1) (hc : CodeAt lines k (signLines top) k')
    (hlabel : lines[k']? = some (.label top))
    (hs : BytesAt core.memory (core.get .a0) (cs.flatMap String.utf8EncodeChar ++ [0]))
    (hg : Reaches L lines start ⟨core, k⟩) :
    ∃ (core' : Core) (ds : List Char), Reaches L lines start ⟨core', k'⟩ ∧
      OnlySets [.t0, .t1, .t2, .t3, .a0] core core' ∧
      core'.get .t0 = 0 ∧ BytesAt core'.memory (core'.get .a0) (ds.flatMap String.utf8EncodeChar ++ [0]) ∧
      (core'.get .t1 = 0 ∧ leadingInt cs = digitsValue (ds.takeWhile Char.isDigit) ∨
        core'.get .t1 = 1 ∧ leadingInt cs = -(digitsValue (ds.takeWhile Char.isDigit) : Int)) := by
  simp only [signLines, codeAt_instruction, codeAt_nil] at hc
  obtain ⟨hli, hli', hload, hminus, hbne, hone, hnext, rfl⟩ := hc
  let core₁ := (core.set .t0 0).set .t1 0
  let b := core.memory (core.get .a0)
  let core₂ := (core₁.set .t2 (b.signExtend 32)).set .t3 (.ofInt 32 (charCode '-'))
  have h₁ : OnlySets [.t0, .t1, .t2, .t3, .a0] core core₁ := ((OnlySets.refl core).set (by decide)).set (by decide)
  have h₂ : OnlySets [.t0, .t1, .t2, .t3, .a0] core core₂ := (h₁.set (by decide)).set (by decide)
  have hg₁ : Reaches L lines start ⟨core₁, k + 1 + 1⟩ :=
    (hg.step (step_instruction hli rfl)).step (step_instruction hli' rfl)
  have hg₂ : Reaches L lines start ⟨core₁.set .t2 (b.signExtend 32), k + 1 + 1 + 1⟩ := by
    apply hg₁.step (step_instruction hload _)
    have ha₀ : core₁.get .a0 = core.get .a0 := rfl
    simp [effect, ha₀, b]
    rfl
  have hg₃ := (hg₂.step (step_instruction hminus rfl)).branch hbne hlabel (hunique _)
  rw [Core.get_set_of_ne (by decide), Core.get_set (by decide), Core.get_set (by decide), branchTaken] at hg₃
  have hsigned (b : BitVec 8) : b.signExtend 32 = .ofInt 32 (charCode '-') ↔ b.toNat = 45 := by
    revert b
    decide +kernel
  by_cases hsign : b.toNat = 45
  · rw [if_neg (by simpa using (hsigned b).mpr hsign)] at hg₃
    have hg₄ := (hg₃.step (step_instruction hone rfl)).step (step_instruction hnext rfl)
    cases cs with
    | nil => exact absurd ((congrArg BitVec.toNat hs.1).symm.trans hsign) (by decide)
    | cons c rest =>
      obtain ⟨b', more, henc, hfirst⟩ := utf8EncodeChar_eq_cons c
      rw [List.flatMap_cons, henc] at hs
      have hb' : b'.toNat = 45 := (congrArg BitVec.toNat hs.1).symm.trans hsign
      obtain ⟨hval, rfl⟩ := hfirst (.inl (by omega))
      obtain rfl : c = '-' := Char.ext (UInt32.toNat.inj (hval.symm.trans hb'))
      exact ⟨_, rest, hg₄, (h₂.set (by decide)).set (by decide), rfl, hs.2, .inr ⟨rfl, rfl⟩⟩
  · rw [if_pos (by simpa using fun h => hsign ((hsigned b).mp h))] at hg₃
    refine ⟨core₂, cs, hg₃, h₂, rfl, hs, .inl ⟨rfl, ?_⟩⟩
    unfold leadingInt
    split
    · exact absurd (congrArg BitVec.toNat hs.1) hsign
    · rfl

/--
The routine that reads an int returns the whole number at the start of the text, modulo 2 ^ 32.
-/
theorem answered_parseInt (hlinked : Linked L lines) (hcall : lines[m]? = some (.jal Routine.parseInt.label))
    (hlength : m + 1 < lines.length) (hg : Reaches L lines start ⟨core, m⟩)
    (hs : BytesAt core.memory (core.get .a0) (bytes s ++ [0])) :
    ∃ core', Reaches L lines start ⟨core', m + 1⟩ ∧ Answered core core' (.ofInt 32 (leadingInt s.toList)) := by
  apply hlinked.returns hcall hlength hg
  intro i j hc hret hg
  have hunique := hlinked.unique
  have hc : CodeAt lines i Routine.parseIntBody j := hc
  rw [parseIntBody_eq] at hc
  obtain ⟨i₂, hc, htail⟩ := codeAt_append.mp hc
  obtain ⟨i₁, hsign, hread⟩ := codeAt_append.mp hc
  simp only [codeAt_instruction, codeAt_label, codeAt_nil] at htail
  obtain ⟨hbeqz, hneg, hdone, hmv, rfl⟩ := htail
  let core₀ := core.set .ra (L.code (m + 1))
  have h₀ : OnlySets (.ra :: scratch) core core₀ := (OnlySets.refl core).set (by decide)
  have hstored : BytesAt core₀.memory (core₀.get .a0) (s.toList.flatMap String.utf8EncodeChar ++ [0]) := by
    rwa [bytes_eq_flatMap] at hs
  obtain ⟨core₁, ds, hg₁, h₁, hzero, hds, hvalue⟩ := hg.readSign hunique hsign (codeAt_label.mp hread).1 hstored
  obtain ⟨core₂, hg₂, h₂, ht₀⟩ := hg₁.readDigits hunique hread hds (n := 0) hzero
  have ht₁ : core₂.get .t1 = core₁.get .t1 := h₂.registers .t1 (by decide)
  have hra : core₂.get .ra = L.code (m + 1) := (h₂.registers .ra (by decide)).trans (h₁.registers .ra (by decide))
  have h₂ : OnlySets (.ra :: scratch) core core₂ := (h₀.trans (h₁.mono (by decide))).trans (h₂.mono (by decide))
  have hg₃ := hg₂.branchZero hbeqz hdone (hunique _)
  rw [ht₁, zeroBranchTaken] at hg₃
  -- Both values are words, so that the magnitude of the lowest number is its own negation.
  rcases hvalue with ⟨hsign, hvalue⟩ | ⟨hsign, hvalue⟩
  · rw [if_pos (by simp [hsign])] at hg₃
    refine ⟨_, _, (hg₃.label hdone).step (step_instruction hmv rfl), hret, hra, ?_, h₂.set (by decide)⟩
    rw [Core.get_set (by decide), moveOp, ht₀, hvalue, BitVec.ofInt_natCast]
    rfl
  · rw [if_neg (by simp [hsign])] at hg₃
    have hg₄ := (hg₃.step (step_instruction hneg rfl)).label hdone
    refine ⟨_, _, hg₄.step (step_instruction hmv rfl), hret, hra, ?_, (h₂.set (by decide)).set (by decide)⟩
    rw [Core.get_set (by decide), moveOp, Core.get_set (by decide), moveOp, ht₀, hvalue, BitVec.ofInt_neg,
      BitVec.ofInt_natCast]
    rfl

theorem apply_parseInt {i : Int} (hread : Decimal.readInt? (Text.trim s).toList = some i)
    (hrange : -2 ^ 31 ≤ i ∧ i < 2 ^ 31) : Embedded.apply .parseInt [.text s] = .ok (.int (.ofInt i)) := by
  have hfilter : (Decimal.readInt? (Text.trim s).toList).filter (fun n => -2 ^ 31 ≤ n && n < 2 ^ 31) = some i := by
    simp [hread, Option.filter]
    exact hrange
  have hvalue : (Embedded.textArg [.text s]).bind Embedded.readInt = Embedded.readInt s := by
    rw [Embedded.textArg, Except.bind]
  rw [Embedded.apply, hvalue, Embedded.readInt]
  simp only [hfilter]

/--
On a text that the evaluator reads as a whole number, the routine returns this number if the text starts with a minus
sign or a digit. If it starts with a blank or a plus sign, the routine returns 0.
-/
theorem parseInt_reads {i : Int} (hlinked : Linked L lines) (hcall : lines[m]? = some (.jal Routine.parseInt.label))
    (hlength : m + 1 < lines.length) (hs : BytesAt core.memory (core.get .a0) (bytes s ++ [0]))
    (hread : Decimal.readInt? (Text.trim s).toList = some i) (hrange : -2 ^ 31 ≤ i ∧ i < 2 ^ 31) :
    ∃ n core', Embedded.apply .parseInt [.text s] = .ok (.int n) ∧ n.toInt = i ∧
      Reaches L lines ⟨core, m⟩ ⟨core', m + 1⟩ ∧
      Answered core core' (if startsInt s.toList then n.toBitVec else 0) ∧
      (core'.get .a0 = n.toBitVec ↔ startsInt s.toList = true ∨ i = 0) := by
  obtain ⟨core', hg, h⟩ := answered_parseInt hlinked hcall hlength (.refl _) hs
  have hi : (Int32.ofInt i).toInt = i := Int32.toInt_ofInt_of_le hrange.1 (by simpa using hrange.2)
  have hword : (Int32.ofInt i).toBitVec = .ofInt 32 i := rfl
  have htrim : (Text.trim s).toList = Text.trimList s.toList := by rw [Text.trim, String.toList_ofList]
  refine ⟨.ofInt i, core', apply_parseInt hread hrange, hi, hg, ?_⟩
  rw [htrim] at hread
  cases hstarts : startsInt s.toList with
  | true =>
    have hvalue := h.result
    rw [Decimal.leadingInt_eq_of_readInt? hstarts hread] at h hvalue
    simpa [hword, hvalue] using h
  | false =>
    have hresult := h.result
    rw [Decimal.leadingInt_eq_zero hstarts] at h hresult
    refine ⟨h, ?_⟩
    have hzero : 0 = (Int32.ofInt i).toBitVec ↔ i = 0 := by
      rw [← BitVec.toInt_inj]
      change 0 = (Int32.ofInt i).toInt ↔ i = 0
      rw [hi, eq_comm]
    simpa [hresult] using hzero

end Parsing

/-! A text to read -/

def readingCode : List Line :=
  [.jal Routine.parseInt.label, .j (.named "end")] ++ Routine.parseInt.lines

def readingCore (s : String) : Core where
  registers r :=
    match r with
    | .a0 => 0x10040000
    | .hp => 0x10050000
    | .sp => 0x7fffeffc
    | _ => 0
  memory a := ((bytes s ++ [0])[(a - 0x10040000).toNat]?.getD 0).toBitVec
  output := []

theorem linked_readingCode : Linked (.usual readingCode) readingCode :=
  linked_usual (by decide +kernel) (by decide +kernel) (by decide +kernel)

theorem parseInt_reads_minusSign : Linked (.usual readingCode) readingCode ∧
    Embedded.apply .parseInt [.text "-0073 "] = .ok (.int (-73)) ∧
    ∃ core', Reaches (.usual readingCode) readingCode ⟨readingCore "-0073 ", 0⟩ ⟨core', 1⟩ ∧
      Answered (readingCore "-0073 ") core' (-73) := by
  obtain ⟨n, core', happly, hn, hg, h, -⟩ := @parseInt_reads (.usual readingCode) readingCode (readingCore "-0073 ")
    "-0073 " 0 (-73) linked_readingCode rfl (by decide +kernel) (by decide +kernel) (by decide +kernel)
    (by decide)
  obtain rfl : n = -73 := Int32.toInt_inj.mp hn
  exact ⟨linked_readingCode, happly, core', hg, h⟩

/--
The evaluator reads the number of a text with blanks around it. The routine returns 0, and cannot return the number.
-/
theorem parseInt_leadingBlank : Linked (.usual readingCode) readingCode ∧
    BytesAt (readingCore " 42 ").memory ((readingCore " 42 ").get .a0) (bytes " 42 " ++ [0]) ∧
    Embedded.apply .parseInt [.text " 42 "] = .ok (.int 42) ∧
    (∃ core', Reaches (.usual readingCode) readingCode ⟨readingCore " 42 ", 0⟩ ⟨core', 1⟩ ∧
      Answered (readingCore " 42 ") core' 0) ∧
    ¬∃ core', Reaches (.usual readingCode) readingCode ⟨readingCore " 42 ", 0⟩ ⟨core', 1⟩ ∧ core'.get .a0 = 42 := by
  have hstored : BytesAt (readingCore " 42 ").memory ((readingCore " 42 ").get .a0) (bytes " 42 " ++ [0]) := by
    decide +kernel
  have happly : Embedded.apply .parseInt [.text " 42 "] = .ok (.int 42) :=
    apply_parseInt (i := 42) (by decide +kernel) (by decide)
  have hstates : allStates (.usual readingCode) readingCode
      (fun m => decide (m.pc = 1 → m.core.get .a0 = 0)) 20 ⟨readingCore " 42 ", 0⟩ = true := by
    decide +kernel
  obtain ⟨core', hg, h⟩ := answered_parseInt linked_readingCode (m := 0) rfl (by decide +kernel) (.refl _) hstored
  refine ⟨linked_readingCode, hstored, happly, ⟨core', hg, h⟩, ?_⟩
  rintro ⟨core'', hg', hresult⟩
  have hzero : core''.get .a0 = 0 := of_decide_eq_true (check_of_allStates hstates hg') rfl
  rw [hresult] at hzero
  exact absurd hzero (by decide)

end Arbor.Machine
