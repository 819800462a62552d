import Arbor.Proofs.Json.Number
import Arbor.Toml.Reader

/-!
This module contains the lines of documents as they are usually written: headers and fields with bare keys, one blank
on either side of the equals sign, and nothing after the value, which may be a natural number.
-/

namespace Arbor.Toml

variable {key : String} {c x : Char} {ds cs rest later : List Char} {n low high : Nat} {v : Value} {d d' : Document}

theorem ne_of_test {p : Char → Bool} (hc : p c = true) (hx : p x = false) : c ≠ x := by
  rintro rfl
  rw [hc] at hx
  cases hx

theorem isBlank_of_test {p : Char → Bool} (hc : p c = true) (hspace : p ' ' = false) (htab : p '\t' = false) :
    isBlank c = false := by
  have hspace : c ≠ ' ' := ne_of_test hc hspace
  have htab : c ≠ '\t' := ne_of_test hc htab
  simp [isBlank, hspace, htab]

theorem skipBlanks_cons (hc : isBlank c = false) : skipBlanks (c :: cs) = c :: cs :=
  List.dropWhile_cons_of_neg (by simp [hc])

/-! A number is neither a date nor a time -/

theorem twoDigits?_digits (hds : ∀ c ∈ ds, c.isDigit = true)
    (h : twoDigits? low high (ds ++ '\n' :: rest) = some (n, later)) :
    ∃ ds', (∀ c ∈ ds', c.isDigit = true) ∧ later = ds' ++ '\n' :: rest := by
  unfold twoDigits? at h
  split at h
  · next c d later' heq =>
    dsimp only at h
    split at h
    · next hdigits =>
      cases h
      match ds with
      | [] =>
        cases heq
        exact absurd hdigits.1 (by decide)
      | [_] =>
        cases heq
        exact absurd hdigits.2.1 (by decide)
      | x :: y :: ds =>
        cases heq
        exact ⟨ds, fun c hc => hds c (List.mem_cons_of_mem _ (List.mem_cons_of_mem _ hc)), rfl⟩
    · cases h
  · cases h

theorem after?_digits (hds : ∀ c ∈ ds, c.isDigit = true) (hc : c.isDigit = false) (hline : c ≠ '\n') :
    after? c (ds ++ '\n' :: rest) = none := by
  cases ds with
  | nil => rw [List.nil_append, after?, if_neg hline]
  | cons d ds =>
    rw [List.cons_append, after?, if_neg (ne_of_test (hds d List.mem_cons_self) hc).symm]

theorem date?_digits (hds : ∀ c ∈ ds, c.isDigit = true) : date? (ds ++ '\n' :: rest) = none := by
  by_contra hdate
  obtain ⟨later, hdate⟩ := Option.ne_none_iff_exists'.mp hdate
  unfold date? at hdate
  obtain ⟨⟨_, later₁⟩, h₁, hdate⟩ := Option.bind_eq_some_iff.mp hdate
  obtain ⟨⟨_, later₂⟩, h₂, hdate⟩ := Option.bind_eq_some_iff.mp hdate
  obtain ⟨ds₁, hds₁, rfl⟩ := twoDigits?_digits hds h₁
  obtain ⟨ds₂, hds₂, rfl⟩ := twoDigits?_digits hds₁ h₂
  dsimp only at hdate
  rw [after?_digits hds₂ (by decide) (by decide)] at hdate
  cases hdate

theorem time?_digits (hds : ∀ c ∈ ds, c.isDigit = true) : time? (ds ++ '\n' :: rest) = none := by
  by_contra htime
  obtain ⟨later, htime⟩ := Option.ne_none_iff_exists'.mp htime
  unfold time? at htime
  obtain ⟨⟨_, later₁⟩, h₁, htime⟩ := Option.bind_eq_some_iff.mp htime
  obtain ⟨ds₁, hds₁, rfl⟩ := twoDigits?_digits hds h₁
  dsimp only at htime
  rw [after?_digits hds₁ (by decide) (by decide)] at htime
  cases htime

/-! The digits of a number -/

theorem digitRun?_digits : ∀ ds : List Char, ds ≠ [] → (∀ c ∈ ds, c.isDigit = true) →
    digitRun? Char.isDigit (ds ++ '\n' :: rest) = some (ds, '\n' :: rest)
  | [c], _, hds => by
    have hc := hds c List.mem_cons_self
    simp [digitRun?, hc]
  | c :: d :: ds, _, hds => by
    have ih := digitRun?_digits (d :: ds) (List.cons_ne_nil _ _) fun x hx => hds x (List.mem_cons_of_mem _ hx)
    have hc := hds c List.mem_cons_self
    have hd := hds d (List.mem_cons_of_mem _ List.mem_cons_self)
    rw [List.cons_append] at ih
    rw [List.cons_append, List.cons_append, digitRun?, if_pos hc, if_pos hd, ih]
    · rfl
    · rintro rfl
      cases hd

theorem zero_of_toDigits {cs : List Char} (h : Nat.toDigits 10 n ++ '\n' :: rest = '0' :: cs) :
    n = 0 ∧ cs = '\n' :: rest := by
  have hzero : n = 0 := by
    obtain ⟨c, cs', hcs⟩ := List.exists_cons_of_ne_nil (Nat.toDigits_ne_nil (n := n) (b := 10))
    apply Decimal.eq_zero_of_head?_toDigits
    rw [hcs] at h ⊢
    rw [(List.cons.inj h).1]
    rfl
  subst hzero
  exact ⟨rfl, (List.cons.inj h).2.symm⟩

theorem exists_toDigits_cons (n : Nat) : ∃ c cs, Nat.toDigits 10 n = c :: cs ∧ c.isDigit = true := by
  obtain ⟨c, cs, hcs⟩ := List.exists_cons_of_ne_nil (Nat.toDigits_ne_nil (n := n) (b := 10))
  exact ⟨c, cs, hcs, Decimal.isDigit_of_mem_toDigits (hcs ▸ List.mem_cons_self)⟩

theorem wholeDigits?_toDigits (n : Nat) :
    wholeDigits? (Nat.toDigits 10 n ++ '\n' :: rest) = some (Nat.toDigits 10 n, '\n' :: rest) := by
  unfold wholeDigits?
  split
  · next heq =>
    obtain ⟨rfl, rfl⟩ := zero_of_toDigits heq
    rfl
  · exact digitRun?_digits _ Nat.toDigits_ne_nil fun c hc => Decimal.isDigit_of_mem_toDigits hc

theorem decimal?_toDigits (hn : n < 2 ^ 63) :
    decimal? false (Nat.toDigits 10 n ++ '\n' :: rest) = some (.integer n, '\n' :: rest) := by
  have hinteger : integer (Decimal.digitsValue (Nat.toDigits 10 n) : Nat) = some (.integer n) := by
    rw [Decimal.digitsValue_toDigits, integer, if_pos ⟨by omega, by exact_mod_cast hn⟩]
  unfold decimal?
  rw [wholeDigits?_toDigits, Option.bind_eq_bind, Option.bind_some]
  dsimp only
  split
  · next heq => cases heq
  · next heq =>
    cases heq
    rw [if_neg (by decide), decimal?.signed, if_neg (by decide), hinteger]
    rfl
  · next heq => cases heq

theorem number?_toDigits (hn : n < 2 ^ 63) :
    number? (Nat.toDigits 10 n ++ '\n' :: rest) = some (.integer n, '\n' :: rest) := by
  obtain ⟨c, cs, hcs, hc⟩ := exists_toDigits_cons n
  have hsign : Decimal.splitSign (Nat.toDigits 10 n ++ '\n' :: rest) = (false, Nat.toDigits 10 n ++ '\n' :: rest) := by
    rw [hcs]
    unfold Decimal.splitSign
    split
    · next heq => exact absurd (List.cons.inj heq).1 (ne_of_test hc (by decide))
    · next heq => exact absurd (List.cons.inj heq).1 (ne_of_test hc (by decide))
    · rfl
  have hspecial : special? false (Nat.toDigits 10 n ++ '\n' :: rest) = none := by
    rw [hcs]
    unfold special?
    split
    · next heq => exact absurd (List.cons.inj heq).1 (ne_of_test hc (by decide))
    · next heq => exact absurd (List.cons.inj heq).1 (ne_of_test hc (by decide))
    · rfl
  unfold number?
  split
  · next heq => cases (zero_of_toDigits heq).2
  · next heq => cases (zero_of_toDigits heq).2
  · next heq => cases (zero_of_toDigits heq).2
  · rw [hsign]
    dsimp only
    rw [hspecial]
    exact decimal?_toDigits hn

theorem value?_toDigits (hn : n < 2 ^ 63) (depth : Nat) :
    value? depth (Nat.toDigits 10 n ++ '\n' :: rest) = some (.integer n, '\n' :: rest) := by
  have hnumber : number? (Nat.toDigits 10 n ++ '\n' :: rest) = _ := number?_toDigits hn
  have hdigits : ∀ c ∈ Nat.toDigits 10 n, c.isDigit = true := fun c hc => Decimal.isDigit_of_mem_toDigits hc
  have hdatetime : datetime? (Nat.toDigits 10 n ++ '\n' :: rest) = none := by
    rw [datetime?, datetimeEnd?, date?_digits hdigits, time?_digits hdigits]
    rfl
  obtain ⟨c, cs, hcs, hc⟩ := exists_toDigits_cons n
  have hscalar : scalarValue? (Nat.toDigits 10 n ++ '\n' :: rest) = some (.integer n, '\n' :: rest) := by
    rw [hcs, List.cons_append] at hnumber hdatetime ⊢
    rw [scalarValue?, hdatetime]
    · exact hnumber
    all_goals
      intro _ heq
      exact ne_of_test hc (by decide) (List.cons.inj heq).1
  rw [hcs, List.cons_append] at hscalar ⊢
  rw [value?]
  · exact hscalar
  all_goals
    intro _ heq
    exact ne_of_test hc (by decide) (List.cons.inj heq).1

theorem value?_blank_toDigits (hn : n < 2 ^ 63) (depth : Nat) :
    value? depth (skipBlanks (' ' :: (Nat.toDigits 10 n ++ '\n' :: rest))) = some (.integer n, '\n' :: rest) := by
  obtain ⟨c, cs, hcs, hc⟩ := exists_toDigits_cons n
  have hskip : skipBlanks (Nat.toDigits 10 n ++ '\n' :: rest) = Nat.toDigits 10 n ++ '\n' :: rest := by
    rw [hcs]
    exact skipBlanks_cons (isBlank_of_test hc (by decide) (by decide))
  change value? depth (skipBlanks (Nat.toDigits 10 n ++ '\n' :: rest)) = _
  rw [hskip]
  exact value?_toDigits hn depth

/-! Headers and fields -/

def IsBare (key : String) : Prop :=
  key.toList ≠ [] ∧ key.toList.all isKeyChar = true

instance : DecidablePred IsBare :=
  fun _ => inferInstanceAs (Decidable (_ ∧ _))

theorem IsBare.exists_cons (hkey : IsBare key) : ∃ c cs, key.toList = c :: cs ∧ isKeyChar c = true := by
  obtain ⟨hnil, hall⟩ := hkey
  obtain ⟨c, cs, hcs⟩ := List.exists_cons_of_ne_nil hnil
  rw [hcs, List.all_cons, Bool.and_eq_true] at hall
  exact ⟨c, cs, hcs, hall.1⟩

theorem keyPart?_bare (hkey : IsBare key) (hx : isKeyChar x = false) :
    keyPart? (key.toList ++ x :: rest) = some (key, x :: rest) := by
  have htake : (key.toList ++ x :: rest).takeWhile isKeyChar = key.toList := by
    rw [List.takeWhile_append_of_pos (List.all_eq_true.mp hkey.2), List.takeWhile_cons_of_neg (by simp [hx]),
      List.append_nil]
  have hdrop : (key.toList ++ x :: rest).dropWhile isKeyChar = x :: rest := by
    rw [List.dropWhile_append_of_pos (List.all_eq_true.mp hkey.2), List.dropWhile_cons_of_neg (by simp [hx])]
  obtain ⟨c, cs, hcs, hc⟩ := hkey.exists_cons
  unfold keyPart?
  split
  · next heq =>
    rw [hcs] at heq
    exact absurd (List.cons.inj heq).1 (ne_of_test hc (by decide))
  · next heq =>
    rw [hcs] at heq
    exact absurd (List.cons.inj heq).1 (ne_of_test hc (by decide))
  · dsimp only
    rw [htake, hdrop, String.ofList_toList, if_neg (by simpa using hkey.1)]

theorem key?_bare (hkey : IsBare key) (hx : isKeyChar x = false) (hrest : skipBlanks (x :: rest) = later)
    (hdot : later.head? ≠ some '.') : key? (key.toList ++ x :: rest) = some (([], key), later) := by
  have hskip : skipBlanks (key.toList ++ x :: rest) = key.toList ++ x :: rest := by
    obtain ⟨c, cs, hcs, hc⟩ := hkey.exists_cons
    rw [hcs]
    exact skipBlanks_cons (isBlank_of_test hc (by decide) (by decide))
  have hparts : keyParts? (78 + 1) (key.toList ++ x :: rest) = some (([], key), later) := by
    rw [keyParts?, hskip, keyPart?_bare hkey hx, Option.bind_eq_bind, Option.bind_some]
    dsimp only
    rw [hrest]
    split
    · exact absurd rfl hdot
    · rfl
  exact hparts

theorem line?_header (d : Document) (hkey : IsBare key) (rest : List Char) :
    d.line? ('[' :: (key.toList ++ ']' :: '\n' :: rest)) = (d.openTable [] key).map (·, rest) := by
  have hparts : key? (key.toList ++ ']' :: '\n' :: rest) = some (([], key), ']' :: '\n' :: rest) :=
    key?_bare hkey (by decide) rfl (by simp)
  obtain ⟨c, cs, hcs, hc⟩ := hkey.exists_cons
  rw [hcs] at hparts ⊢
  unfold Document.line?
  split
  · next heq =>
    have heq : '[' :: (c :: cs ++ ']' :: '\n' :: rest) = '[' :: '[' :: _ := heq
    rw [List.cons_append, List.cons.injEq, List.cons.injEq] at heq
    exact absurd heq.2.1 (ne_of_test hc (by decide))
  · next heq =>
    have heq : '[' :: (c :: cs ++ ']' :: '\n' :: rest) = '[' :: _ := heq
    rw [← (List.cons.inj heq).2, hparts, Option.map_eq_bind]
    rfl
  · next hother =>
    exact absurd rfl (hother _)

theorem lineEnd?_of_isKeyChar (hc : isKeyChar c = true) : lineEnd? (c :: cs) = none := by
  have hhash : c ≠ '#' := ne_of_test hc (by decide)
  have hline : c ≠ '\n' := ne_of_test hc (by decide)
  have hreturn : c ≠ '\r' := ne_of_test hc (by decide)
  unfold lineEnd?
  rw [skipBlanks_cons (isBlank_of_test hc (by decide) (by decide))]
  simp [newline?, hhash, hline, hreturn]

theorem line?_field (d : Document) (hkey : IsBare key) (cs : List Char) :
    d.line? (key.toList ++ ' ' :: '=' :: cs) =
      (value? depthLimit (skipBlanks cs)).bind fun (v, later) =>
        (lineEnd? later).bind fun rest => (d.add [] key v).map (·, rest) := by
  have hparts : key? (key.toList ++ ' ' :: '=' :: cs) = some (([], key), '=' :: cs) :=
    key?_bare hkey (by decide) rfl (by simp)
  obtain ⟨c, cs', hcs, hc⟩ := hkey.exists_cons
  rw [hcs] at hparts ⊢
  have hskip : skipBlanks (c :: cs' ++ ' ' :: '=' :: cs) = c :: cs' ++ ' ' :: '=' :: cs :=
    skipBlanks_cons (isBlank_of_test hc (by decide) (by decide))
  unfold Document.line?
  rw [hskip]
  split
  · next heq => exact absurd (List.cons.inj heq).1 (ne_of_test hc (by decide))
  · next heq => exact absurd (List.cons.inj heq).1 (ne_of_test hc (by decide))
  · have hfield : field? (value? depthLimit) (c :: cs' ++ ' ' :: '=' :: cs) =
        (value? depthLimit (skipBlanks cs)).bind fun (v, later) => some (([], key, v), later) := by
      rw [field?, hparts]
      rfl
    rw [List.cons_append, lineEnd?_of_isKeyChar hc, ← List.cons_append, hfield, Option.bind_eq_bind,
      Option.bind_assoc]
    simp only [Option.map_eq_bind]
    rfl

/-! Lines after one another -/

theorem lines?_next (h : d.line? (c :: cs) = some (d', rest)) (fuel : Nat) :
    Document.lines? (fuel + 1) d (c :: cs) = Document.lines? fuel d' rest := by
  rw [Document.lines?, h]
  · rfl
  · simp

theorem lines?_header (hkey : IsBare key) (hopen : d.openTable [] key = some d') (fuel : Nat) (rest : List Char) :
    Document.lines? (fuel + 1) d ('[' :: (key.toList ++ ']' :: '\n' :: rest)) = Document.lines? fuel d' rest := by
  apply lines?_next
  rw [line?_header d hkey, hopen]
  rfl

theorem lines?_fieldOf (d : Document) (hkey : IsBare key) (fuel : Nat) (cs : List Char) :
    Document.lines? (fuel + 1) d (key.toList ++ ' ' :: '=' :: cs) =
      (value? depthLimit (skipBlanks cs)).bind fun (v, later) =>
        (lineEnd? later).bind fun rest => (d.add [] key v).bind fun d => Document.lines? fuel d rest := by
  have hline := line?_field d hkey cs
  obtain ⟨c, cs', hcs, -⟩ := hkey.exists_cons
  rw [hcs] at hline ⊢
  rw [List.cons_append] at hline ⊢
  rw [Document.lines?, hline]
  · simp only [Option.bind_eq_bind, Option.bind_assoc, Option.map_eq_bind]
    rfl
  · simp

theorem lines?_field (hkey : IsBare key) (hvalue : value? depthLimit (skipBlanks cs) = some (v, '\n' :: rest))
    (hadd : d.add [] key v = some d') (fuel : Nat) :
    Document.lines? (fuel + 1) d (key.toList ++ ' ' :: '=' :: cs) = Document.lines? fuel d' rest := by
  rw [lines?_fieldOf d hkey, hvalue, Option.bind_some]
  change (d.add [] key v).bind _ = _
  rw [hadd, Option.bind_some]

theorem lines?_blank (d : Document) (fuel : Nat) (rest : List Char) :
    Document.lines? (fuel + 1) d ('\n' :: rest) = Document.lines? fuel d rest :=
  lines?_next rfl fuel

end Arbor.Toml
