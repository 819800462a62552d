import Arbor.Decimal.Reader
import Arbor.Text.Blank
import Arbor.Proofs.Json.Number

/-!
This module contains the whole number at the start of a text, which is read without regard to what follows it, and how
it compares to the whole number that the text is when its blanks are trimmed.
-/

namespace Arbor.Text

theorem isBlank_eq_false_of_isDigit {c : Char} (h : c.isDigit = true) : isBlank c = false := by
  have hc : '0'.toNat ≤ c.toNat ∧ c.toNat ≤ '9'.toNat := by
    simpa [Char.isDigit, UInt32.le_iff_toNat_le] using h
  simp only [Char.reduceToNat] at hc
  unfold isBlank
  simp
  omega

theorem dropWhile_isBlank_eq (cs : List Char) :
    ∃ blanks, cs.dropWhile isBlank = trimList cs ++ blanks ∧ ∀ c ∈ blanks, isBlank c = true := by
  refine ⟨((cs.dropWhile isBlank).reverse.takeWhile isBlank).reverse, ?_, fun c hc => ?_⟩
  · rw [trimList, ← List.reverse_append, List.takeWhile_append_dropWhile, List.reverse_reverse]
  · rw [List.mem_reverse] at hc
    exact List.mem_takeWhile_imp hc

theorem dropWhile_isBlank_eq_self {cs : List Char} (h : ∀ c ∈ cs, isBlank c = false) :
    cs.dropWhile isBlank = cs := by
  cases cs with
  | nil => rfl
  | cons c rest => rw [List.dropWhile_cons_of_neg (by simp [h c List.mem_cons_self])]

theorem trimList_eq_self {cs : List Char} (h : ∀ c ∈ cs, isBlank c = false) : trimList cs = cs := by
  rw [trimList, dropWhile_isBlank_eq_self h, dropWhile_isBlank_eq_self, List.reverse_reverse]
  intro c hc
  exact h c (List.mem_reverse.mp hc)

end Arbor.Text

namespace Arbor.Decimal

open Text

def leadingInt : List Char → Int
  | '-' :: rest => -(digitsValue (rest.takeWhile Char.isDigit) : Int)
  | cs => digitsValue (cs.takeWhile Char.isDigit)

/--
Whether a text starts with a minus sign or a digit, with which a leading number starts. There is none after a plus sign
or a blank.
-/
def startsInt : List Char → Bool
  | [] => false
  | c :: _ => c == '-' || c.isDigit

variable {cs ds : List Char} {i : Int}

theorem leadingInt_eq_zero (h : startsInt cs = false) : leadingInt cs = 0 := by
  cases cs with
  | nil => rfl
  | cons c rest =>
    simp only [startsInt, Bool.or_eq_false_iff, beq_eq_false_iff_ne] at h
    have hhead : leadingInt (c :: rest) = digitsValue ((c :: rest).takeWhile Char.isDigit) := by
      rw [leadingInt]
      rintro _ ⟨⟩
      exact h.1 rfl
    rw [hhead, List.takeWhile_cons_of_neg (by simp [h.2])]
    rfl

theorem exists_of_readInt? (h : readInt? cs = some i) :
    ∃ ds, ds ≠ [] ∧ (∀ c ∈ ds, c.isDigit = true) ∧
      (cs = '-' :: ds ∧ i = -(digitsValue ds : Int) ∨ cs = '+' :: ds ∧ i = digitsValue ds ∨
        cs = ds ∧ i = digitsValue ds) := by
  unfold readInt? at h
  simp only [Option.ite_none_left_eq_some, Bool.or_eq_true, List.isEmpty_iff, Bool.not_eq_true', not_or,
    Option.some.injEq, Bool.not_eq_false, List.all_eq_true] at h
  obtain ⟨⟨hne, hdigits⟩, hvalue⟩ := h
  refine ⟨_, hne, hdigits, ?_⟩
  unfold splitSign at hvalue ⊢
  split at hvalue
  · exact .inl ⟨rfl, hvalue.symm⟩
  · exact .inr (.inl ⟨rfl, hvalue.symm⟩)
  · exact .inr (.inr ⟨rfl, hvalue.symm⟩)

theorem splitSign_of_digits (h : ∀ c ∈ cs, c.isDigit = true) : splitSign cs = (false, cs) := by
  unfold splitSign
  split
  · exact absurd (h '-' List.mem_cons_self) (by decide)
  · exact absurd (h '+' List.mem_cons_self) (by decide)
  · rfl

theorem takeWhile_digits_append {blanks : List Char} (hdigits : ∀ c ∈ ds, c.isDigit = true)
    (hblanks : ∀ c ∈ blanks, isBlank c = true) : (ds ++ blanks).takeWhile Char.isDigit = ds := by
  rw [List.takeWhile_append_of_pos hdigits]
  cases blanks with
  | nil => rw [List.takeWhile_nil, List.append_nil]
  | cons c rest =>
    have hc : ¬c.isDigit = true := by
      intro hdigit
      have hblank := hblanks c List.mem_cons_self
      rw [isBlank_eq_false_of_isDigit hdigit] at hblank
      cases hblank
    rw [List.takeWhile_cons_of_neg hc, List.append_nil]

/--
A text that starts with a minus sign or a digit starts with the number that it is when it is trimmed.
-/
theorem leadingInt_eq_of_readInt? (hstarts : startsInt cs = true) (h : readInt? (trimList cs) = some i) :
    leadingInt cs = i := by
  obtain ⟨blanks, hcs, hblanks⟩ := dropWhile_isBlank_eq cs
  -- Blanks can only be behind the number.
  have hself : cs.dropWhile isBlank = cs := by
    cases cs with
    | nil => cases hstarts
    | cons c rest =>
      have hc : isBlank c = false := by
        simp only [startsInt, Bool.or_eq_true, beq_iff_eq] at hstarts
        rcases hstarts with rfl | hdigit
        · decide
        · exact isBlank_eq_false_of_isDigit hdigit
      rw [List.dropWhile_cons_of_neg (by simp [hc])]
  rw [hself] at hcs
  obtain ⟨ds, hne, hdigits, ⟨htrim, rfl⟩ | ⟨htrim, rfl⟩ | ⟨htrim, rfl⟩⟩ := exists_of_readInt? h
  · rw [hcs, htrim, List.cons_append, leadingInt, takeWhile_digits_append hdigits hblanks]
  · rw [hcs, htrim] at hstarts
    cases hstarts
  · have hhead : leadingInt (ds ++ blanks) = digitsValue ((ds ++ blanks).takeWhile Char.isDigit) := by
      rw [leadingInt]
      intro rest heq
      cases ds with
      | nil => exact hne rfl
      | cons d ds =>
        cases heq
        exact absurd (hdigits '-' List.mem_cons_self) (by decide)
    rw [hcs, htrim, hhead, takeWhile_digits_append hdigits hblanks]

/-! Texts of ints -/

theorem toList_toString (i : Int) :
    (toString i).toList = if 0 ≤ i then Nat.toDigits 10 i.natAbs else '-' :: Nat.toDigits 10 i.natAbs := by
  rw [Int.toString_eq_repr, Int.repr_eq_if]
  split
  · have habs : i.toNat = i.natAbs := by omega
    rw [Nat.repr_eq_ofList_toDigits, String.toList_ofList, habs]
  · have habs : (-i).toNat = i.natAbs := by omega
    have hminus : "-".toList = ['-'] := rfl
    rw [Nat.repr_eq_ofList_toDigits, String.toList_append, hminus, String.toList_ofList, habs]
    rfl

theorem startsInt_toString (i : Int) : startsInt (toString i).toList = true := by
  rw [toList_toString]
  split
  · obtain ⟨c, cs, hcs⟩ := List.exists_cons_of_ne_nil (Nat.toDigits_ne_nil (n := i.natAbs) (b := 10))
    have hdigit : c.isDigit = true := isDigit_of_mem_toDigits (n := i.natAbs) (by simp [hcs])
    simp [hcs, startsInt, hdigit]
  · rfl

theorem trimList_toString (i : Int) : trimList (toString i).toList = (toString i).toList := by
  have hdigits (c : Char) (hc : c ∈ Nat.toDigits 10 i.natAbs) : isBlank c = false :=
    isBlank_eq_false_of_isDigit (isDigit_of_mem_toDigits hc)
  apply trimList_eq_self
  intro c hc
  rw [toList_toString] at hc
  split at hc
  · exact hdigits c hc
  · rcases List.mem_cons.mp hc with rfl | hc
    · decide
    · exact hdigits c hc

theorem readInt?_toString (i : Int) : readInt? (toString i).toList = some i := by
  have hall : (Nat.toDigits 10 i.natAbs).all Char.isDigit = true :=
    List.all_eq_true.mpr fun _ => isDigit_of_mem_toDigits
  have hne : (Nat.toDigits 10 i.natAbs).isEmpty = false := by
    rw [List.isEmpty_eq_false_iff]
    exact Nat.toDigits_ne_nil
  rw [toList_toString]
  split
  · have hvalue : (i.natAbs : Int) = i := by omega
    rw [readInt?, splitSign_of_digits fun c => isDigit_of_mem_toDigits]
    simp only [hall, hne, digitsValue_toDigits, hvalue]
    rfl
  · have hvalue : -(i.natAbs : Int) = i := by omega
    have hsplit : splitSign ('-' :: Nat.toDigits 10 i.natAbs) = (true, Nat.toDigits 10 i.natAbs) := rfl
    rw [readInt?, hsplit]
    simp only [hall, hne, digitsValue_toDigits, hvalue]
    rfl

end Arbor.Decimal
