import Arbor.Text.Escape
import Mathlib.Algebra.Group.Nat.Even
import Mathlib.Data.List.Induction

/-!
This module contains the writing of escapes, which reading them undoes, and the places at which a raw text can be cut:
the parts of a text are read on their own if and only if the first one ends in an even number of backslashes.
-/

namespace Arbor.Text

def escapeChar : Char → List Char
  | '\\' => ['\\', '\\']
  | '"' => ['\\', '"']
  | '\n' => ['\\', 'n']
  | '\t' => ['\\', 't']
  | c => [c]

def escape (s : String) : String :=
  String.ofList (s.toList.flatMap escapeChar)

def sequence : Char → List Char
  | 'n' => ['\n']
  | 't' => ['\t']
  | '"' => ['"']
  | '\\' => ['\\']
  | c => ['\\', c]

def backslashesAtEnd (cs : List Char) : Nat :=
  (cs.reverse.takeWhile (· == '\\')).length

def finalBackslashes (s : String) : Nat :=
  backslashesAtEnd s.toList

inductive Whole : List Char → Prop where
  | nil : Whole []
  | plain {c : Char} {cs : List Char} : c ≠ '\\' → Whole cs → Whole (c :: cs)
  | sequence (c : Char) {cs : List Char} : Whole cs → Whole ('\\' :: c :: cs)

variable {c : Char} {cs ds : List Char}

theorem unescapeList_cons (h : c ≠ '\\') : unescapeList (c :: cs) = c :: unescapeList cs := by
  rw [unescapeList]
  all_goals
    intro rest hc
    exact absurd hc h

theorem unescapeList_sequence (c : Char) (cs : List Char) :
    unescapeList ('\\' :: c :: cs) = sequence c ++ unescapeList cs := by
  unfold sequence
  split
  · rfl
  · rfl
  · rfl
  · rfl
  next hn ht hquote hbackslash =>
    rw [unescapeList, unescapeList_cons hbackslash]
    · rfl
    all_goals
      intro rest hcs
      simp_all

theorem unescapeList_escapeChar (c : Char) (cs : List Char) :
    unescapeList (escapeChar c ++ cs) = c :: unescapeList cs := by
  unfold escapeChar
  split
  · rfl
  · rfl
  · rfl
  · rfl
  next hbackslash _ _ _ => exact unescapeList_cons hbackslash

theorem unescapeList_flatMap (cs : List Char) : unescapeList (cs.flatMap escapeChar) = cs := by
  induction cs with
  | nil => rfl
  | cons c cs ih => rw [List.flatMap_cons, unescapeList_escapeChar, ih]

theorem Whole.unescapeList_append (h : Whole cs) (ds : List Char) :
    unescapeList (cs ++ ds) = unescapeList cs ++ unescapeList ds := by
  induction h with
  | nil => rfl
  | plain hc _ ih => rw [List.cons_append, unescapeList_cons hc, unescapeList_cons hc, ih, List.cons_append]
  | sequence c _ ih =>
    rw [List.cons_append, List.cons_append, unescapeList_sequence, unescapeList_sequence, ih,
      List.append_assoc]

theorem whole_or_exists (cs : List Char) : Whole cs ∨ ∃ ds, Whole ds ∧ cs = ds ++ ['\\'] :=
  match cs with
  | [] => .inl .nil
  | [c] => by
    by_cases hc : c = '\\'
    · exact .inr ⟨[], .nil, by rw [hc]; rfl⟩
    · exact .inl (.plain hc .nil)
  | c :: d :: rest => by
    by_cases hc : c = '\\'
    · subst hc
      rcases whole_or_exists rest with h | ⟨ds, hds, rfl⟩
      · exact .inl (.sequence d h)
      · exact .inr ⟨'\\' :: d :: ds, .sequence d hds, rfl⟩
    · rcases whole_or_exists (d :: rest) with h | ⟨ds, hds, heq⟩
      · exact .inl (.plain hc h)
      · exact .inr ⟨c :: ds, .plain hc hds, by rw [heq]; rfl⟩

/-! Backslashes at the end -/

theorem backslashesAtEnd_append_backslash (cs : List Char) :
    backslashesAtEnd (cs ++ ['\\']) = backslashesAtEnd cs + 1 := by
  simp [backslashesAtEnd]

theorem backslashesAtEnd_append_of_ne (h : c ≠ '\\') (cs : List Char) : backslashesAtEnd (cs ++ [c]) = 0 := by
  simp [backslashesAtEnd, h]

theorem Whole.append (hcs : Whole cs) (hds : Whole ds) : Whole (cs ++ ds) := by
  induction hcs with
  | nil => exact hds
  | plain hc _ ih => exact .plain hc ih
  | sequence c _ ih => exact .sequence c ih

theorem Whole.of_cons (h : Whole (c :: cs)) (hc : c ≠ '\\') : Whole cs := by
  cases h with
  | plain _ h => exact h
  | sequence => exact absurd rfl hc

theorem Whole.of_sequence (h : Whole ('\\' :: c :: cs)) : Whole cs := by
  cases h with
  | plain hc _ => exact absurd rfl hc
  | sequence _ h => exact h

theorem Whole.not_append_backslash (h : Whole cs) : ¬ Whole (cs ++ ['\\']) := by
  induction h with
  | nil =>
    intro h
    cases h with
    | plain hc _ => exact hc rfl
  | plain hc _ ih => exact fun h => ih (h.of_cons hc)
  | sequence c _ ih => exact fun h => ih h.of_sequence

theorem whole_append_backslash_iff : Whole (cs ++ ['\\']) ↔ ¬ Whole cs := by
  constructor
  · exact fun h hcs => hcs.not_append_backslash h
  · intro h
    rcases whole_or_exists cs with hcs | ⟨ds, hds, rfl⟩
    · exact absurd hcs h
    · rw [List.append_assoc]
      exact hds.append (.sequence '\\' .nil)

theorem whole_append_of_ne (h : c ≠ '\\') (cs : List Char) : Whole (cs ++ [c]) := by
  rcases whole_or_exists cs with hcs | ⟨ds, hds, rfl⟩
  · exact hcs.append (.plain h .nil)
  · rw [List.append_assoc]
    exact hds.append (.sequence c .nil)

theorem whole_iff_even : Whole cs ↔ Even (backslashesAtEnd cs) := by
  -- Only the last characters matter, so the induction takes them off one by one.
  induction cs using List.reverseRecOn with
  | nil => exact iff_of_true .nil ⟨0, rfl⟩
  | append_singleton cs c ih =>
    by_cases hc : c = '\\'
    · rw [hc, whole_append_backslash_iff, backslashesAtEnd_append_backslash, Nat.even_add_one, ih]
    · rw [backslashesAtEnd_append_of_ne hc]
      exact iff_of_true (whole_append_of_ne hc cs) ⟨0, rfl⟩

/--
A text that lacks the character after its last backslash must not be cut there: the backslash takes the next character
along.
-/
theorem whole_of_unescapeList_append (h : ∀ ds, unescapeList (cs ++ ds) = unescapeList cs ++ unescapeList ds) :
    Whole cs := by
  rcases whole_or_exists cs with hcs | ⟨ds, hds, rfl⟩
  · exact hcs
  · have hcut := h ['n']
    rw [List.append_assoc, hds.unescapeList_append, hds.unescapeList_append, List.append_assoc,
      List.append_cancel_left_eq] at hcut
    cases hcut

/--
Reading escapes undoes writing them. It is a single pass from left to right, in which a text can be cut exactly where
no backslash is left without the character after it.
-/
theorem unescape_escape_and_append :
    (∀ s, unescape (escape s) = s) ∧
      ∀ a, Even (finalBackslashes a) ↔ ∀ b, unescape (a ++ b) = unescape a ++ unescape b := by
  have happend (a b : String) : unescape (a ++ b) = unescape a ++ unescape b ↔
      unescapeList (a.toList ++ b.toList) = unescapeList a.toList ++ unescapeList b.toList := by
    simp [unescape, ← String.toList_inj]
  constructor
  · intro s
    rw [unescape, escape, String.toList_ofList, unescapeList_flatMap, String.ofList_toList]
  · intro a
    rw [finalBackslashes, ← whole_iff_even]
    constructor
    · intro h b
      exact (happend a b).mpr (h.unescapeList_append b.toList)
    · intro h
      apply whole_of_unescapeList_append
      intro ds
      simpa using (happend a (String.ofList ds)).mp (h (String.ofList ds))

/--
The backslash that ends the first part is written twice, so the parts are read on their own.
-/
example : unescape "tab\\\\" ++ unescape "now" = unescape "tab\\\\now" := by decide +kernel

end Arbor.Text
