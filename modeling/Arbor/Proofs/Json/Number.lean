import Arbor.Json.Scalar
import Arbor.Json.Writer
import Mathlib.Data.List.TakeWhile

/-!
This module contains the facts about the texts of numbers: which characters they are made of, and that a whole
number is read back from its text.
-/

namespace Arbor

namespace Decimal

theorem digitsValue_toDigits (n : Nat) : digitsValue (Nat.toDigits 10 n) = n := by
  have h : digitsValue (Nat.toDigits 10 n) = Nat.ofDigitChars 10 (Nat.toDigits 10 n) 0 := by
    simp only [digitsValue, Nat.ofDigitChars, Nat.mul_comm]
  rw [h, Nat.ofDigitChars_ten_toDigits]

theorem isDigit_of_mem_toDigits {n : Nat} {c : Char} (h : c ∈ Nat.toDigits 10 n) : c.isDigit :=
  Nat.isDigit_of_mem_toDigits (by decide) (by decide) h

theorem eq_zero_of_head?_toDigits : ∀ {n : Nat}, (Nat.toDigits 10 n).head? = some '0' → n = 0
  | n, h => by
    rw [Nat.toDigits_eq_if (by decide)] at h
    split at h
    next hn => simpa using h
    next hn =>
      obtain ⟨c, cs, hcs⟩ := List.exists_cons_of_ne_nil (Nat.toDigits_ne_nil (n := n / 10) (b := 10))
      have := eq_zero_of_head?_toDigits (n := n / 10) (by rw [hcs] at h ⊢; exact h)
      omega

end Decimal

namespace Json

open Decimal

def Number.Exact (n : Number) : Prop :=
  number? n.text.toList = some (some n)

section Characters

def Numeric (text : String) : Prop :=
  ∀ c ∈ text.toList, isNumberChar c

instance (text : String) : Decidable (Numeric text) :=
  List.decidableBAll (fun c => isNumberChar c = true) text.toList

theorem isNumberChar_of_isDigit {c : Char} (h : c.isDigit) : isNumberChar c := by
  simp [isNumberChar, h]

theorem Numeric.append {s t : String} (hs : Numeric s) (ht : Numeric t) : Numeric (s ++ t) := by
  intro c h
  rw [String.toList_append, List.mem_append] at h
  exact h.elim (hs c) (ht c)

theorem Numeric.ofList {cs : List Char} (h : ∀ c ∈ cs, c.isDigit ∨ c = '.') : Numeric (String.ofList cs) := by
  intro c hc
  rw [String.toList_ofList] at hc
  rcases h c hc with hd | rfl
  · exact isNumberChar_of_isDigit hd
  · rfl

theorem Numeric.nat (n : Nat) : Numeric (toString n) := by
  intro c hc
  rw [Nat.toString_eq_repr, Nat.toList_repr] at hc
  exact isNumberChar_of_isDigit (isDigit_of_mem_toDigits hc)

theorem Numeric.int (n : Int) : Numeric (toString n) := by
  cases n with
  | ofNat n => exact Numeric.nat n
  | negSucc n => exact Numeric.append (s := "-") (by decide) (Numeric.nat (n + 1))

theorem Numeric.positional (d : Scaled) : Numeric d.positional := by
  rw [Scaled.positional]
  split
  · apply Numeric.append (Numeric.nat _)
    apply Numeric.ofList
    intro c h
    rw [List.eq_of_mem_replicate h]
    exact .inl rfl
  · apply Numeric.ofList
    intro c h
    have hdigits : ∀ {k : Nat}, c ∈ List.replicate k '0' ++ Nat.toDigits 10 d.digits → c.isDigit := by
      intro k h
      rcases List.mem_append.mp h with h | h
      · rw [List.eq_of_mem_replicate h]
        rfl
      · exact isDigit_of_mem_toDigits h
    rcases List.mem_append.mp h with h | h
    · exact .inl (hdigits (List.mem_of_mem_take h))
    · rcases List.mem_cons.mp h with h | h
      · exact .inr h
      · exact .inl (hdigits (List.mem_of_mem_drop h))

theorem Numeric.scientific (d : Scaled) : Numeric d.scientific := by
  rw [Scaled.scientific]
  split
  · decide
  next lead rest hds =>
    have hdigit : ∀ c ∈ lead :: rest, c.isDigit := fun c h => isDigit_of_mem_toDigits (hds ▸ h)
    refine Numeric.append (Numeric.append (Numeric.ofList ?_) (by decide)) (Numeric.int _)
    intro c h
    rcases List.mem_cons.mp h with rfl | h
    · exact .inl (hdigit _ List.mem_cons_self)
    · split at h
      · cases h
      · rcases List.mem_cons.mp h with h | h
        · exact .inr h
        · exact .inl (hdigit c (List.mem_cons_of_mem _ h))

theorem Numeric.signed (negative : Bool) {text : String} (h : Numeric text) :
    Numeric (if negative then "-" ++ text else text) := by
  cases negative with
  | false => exact h
  | true => exact Numeric.append (s := "-") (by decide) h

theorem Numeric.unsigned (positional marked : Bool) (d : Scaled) :
    Numeric (if positional then if marked then d.positional ++ ".0" else d.positional else d.scientific) := by
  cases positional with
  | false => exact Numeric.scientific d
  | true =>
    cases marked with
    | false => exact Numeric.positional d
    | true => exact Numeric.append (Numeric.positional d) (by decide)

theorem Numeric.finite (form : FloatForm) {x : Float} {negative : Bool} {m : Nat} {q : Int}
    (h : Parts.of x = .finite negative m q) : Numeric (form.text x) := by
  rw [FloatForm.text, h]
  exact Numeric.signed negative (Numeric.unsigned _ _ _)

/--
The words that stand for floats without a number are not read as numbers, so what is read back is a number.
-/
theorem Number.Exact.numeric {n : Number} (h : n.Exact) : Numeric n.text := by
  cases n with
  | integer n => exact Numeric.int n
  | real x =>
    rw [Number.Exact, Number.text] at h
    rw [Number.text]
    split at h
    next hfinite =>
      rw [if_pos hfinite]
      cases hx : Parts.of x with
      | nan => rw [FloatForm.text, hx] at h; cases h
      | infinite negative => cases negative <;> (rw [FloatForm.text, hx] at h; cases h)
      | finite negative m q => exact Numeric.finite .marked hx
    · cases h

end Characters

section Integers

variable {n : Nat}

theorem takeWhile_toDigits (n : Nat) : (Nat.toDigits 10 n).takeWhile Char.isDigit = Nat.toDigits 10 n :=
  List.takeWhile_eq_self_iff.mpr fun _ => isDigit_of_mem_toDigits

theorem dropWhile_toDigits (n : Nat) : (Nat.toDigits 10 n).dropWhile Char.isDigit = [] :=
  List.dropWhile_eq_nil_iff.mpr fun _ => isDigit_of_mem_toDigits

theorem regular_toDigits (n : Nat) : ¬ ((Nat.toDigits 10 n).isEmpty = true ∨
    ((Nat.toDigits 10 n).head? = some '0' ∧ (Nat.toDigits 10 n).length ≠ 1)) := by
  rintro (h | ⟨hzero, hlength⟩)
  · simp at h
  · rw [eq_zero_of_head?_toDigits hzero] at hlength
    exact hlength rfl

theorem ne_minus_toDigits (n : Nat) (cs : List Char) : Nat.toDigits 10 n ≠ '-' :: cs := by
  intro h
  have := isDigit_of_mem_toDigits (h ▸ List.mem_cons_self)
  cases this

theorem number?_toDigits (h : n < 2 ^ 64) :
    number? (Nat.toDigits 10 n) = some (some (.integer n)) := by
  rw [number?, takeWhile_toDigits, dropWhile_toDigits, digitsValue_toDigits, if_neg (regular_toDigits n)]
  · have hrange : -2 ^ 63 ≤ (n : Int) ∧ (n : Int) < 2 ^ 64 ∧ ¬ (false = true ∧ (n : Int) = 0) := by
      refine ⟨by omega, by omega, fun h => ?_⟩
      cases h.1
    exact congrArg some (if_pos hrange)
  · exact ne_minus_toDigits n

theorem number?_minus (h : n + 1 ≤ 2 ^ 63) :
    number? ('-' :: Nat.toDigits 10 (n + 1)) = some (some (.integer (.negSucc n))) := by
  rw [number?, takeWhile_toDigits, dropWhile_toDigits, digitsValue_toDigits, if_neg (regular_toDigits _)]
  have hrange : -2 ^ 63 ≤ -((n + 1 : Nat) : Int) ∧ -((n + 1 : Nat) : Int) < 2 ^ 64 ∧
      ¬ (true = true ∧ -((n + 1 : Nat) : Int) = 0) := by omega
  exact congrArg some (if_pos hrange)

theorem Number.exact_integer {n : Int} (hmin : -2 ^ 63 ≤ n) (hmax : n < 2 ^ 64) :
    (Number.integer n).Exact := by
  cases n with
  | ofNat n =>
    have hmax : (n : Int) < 2 ^ 64 := hmax
    show number? (toString n).toList = _
    rw [Nat.toString_eq_repr, Nat.toList_repr]
    exact number?_toDigits (by omega)
  | negSucc n =>
    show number? ("-" ++ toString (n + 1)).toList = _
    rw [String.toList_append, Nat.toString_eq_repr, Nat.toList_repr]
    exact number?_minus (by omega)

end Integers

end Json

end Arbor
