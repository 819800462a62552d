import Arbor.Toml.Lexical

/-!
This module contains which strings between double quotes are what is written: those without quotes, backslashes and
control characters. Any other string is shorter than the text between its quotes.
-/

namespace Arbor.Toml

def isPlain (c : Char) : Bool :=
  isText c && c != '"' && c != '\\'

variable {cs rest : List Char} {s text : String} {c : Char} {fuel : Nat}

/-! Plain strings -/

theorem lineString?_go_plain : ∀ (cs : List Char) (fuel : Nat) (text : String),
    cs.all isPlain = true → cs.length < fuel →
      lineString?.go '"' fuel text (cs ++ '"' :: rest) = some (text ++ String.ofList cs, rest)
  | [], fuel + 1, text, _, _ => by simp [lineString?.go]
  | c :: cs, fuel + 1, text, h, hfuel => by
    simp only [List.all_cons, isPlain, Bool.and_eq_true, bne_iff_ne] at h
    obtain ⟨⟨⟨htext, hquote⟩, hslash⟩, hcs⟩ := h
    rw [List.cons_append, lineString?.go, if_neg hquote, if_neg (by simp [hslash]), if_pos htext,
      lineString?_go_plain cs fuel _ hcs (Nat.lt_of_succ_lt_succ hfuel)]
    simp [← String.toList_inj]

theorem string?_plain (h : cs.all isPlain = true) (hrest : rest.head? ≠ some '"') :
    string? ('"' :: (cs ++ '"' :: rest)) = some (String.ofList cs, rest) := by
  have hline : string? ('"' :: (cs ++ '"' :: rest)) = lineString? '"' (cs ++ '"' :: rest) := by
    rw [string?]
    · intro later heq
      cases cs with
      | nil =>
        cases heq
        exact hrest rfl
      | cons c cs =>
        rw [(List.cons.inj heq).1] at h
        simp [isPlain] at h
  rw [hline, lineString?, lineString?_go_plain cs _ _ h (by simp)]
  simp

/-! What is read -/

theorem suffix_of_hex4? {n : Nat} (h : Json.hex4? cs = some (n, rest)) : rest <:+ cs ∧ rest.length < cs.length := by
  unfold Json.hex4? at h
  split at h
  · simp only [Option.bind_eq_bind, Option.bind_eq_some_iff, Option.some.injEq, Prod.mk.injEq] at h
    obtain ⟨_, _, _, _, _, _, _, _, _, rfl⟩ := h
    exact ⟨⟨[_, _, _, _], rfl⟩, by simp; omega⟩
  · cases h

theorem suffix_of_escape? (h : escape? cs = some (c, rest)) : rest <:+ cs ∧ rest.length < cs.length := by
  unfold escape? at h
  split at h
  · simp only [Option.bind_eq_bind, Option.bind_eq_some_iff, Option.some.injEq, Prod.mk.injEq] at h
    obtain ⟨⟨_, _⟩, hunit, _, _, _, rfl⟩ := h
    obtain ⟨hsuffix, hlength⟩ := suffix_of_hex4? hunit
    exact ⟨hsuffix.trans (List.suffix_cons ..), Nat.lt_succ_of_lt hlength⟩
  · simp only [Option.bind_eq_bind, Option.bind_eq_some_iff, Option.some.injEq, Prod.mk.injEq] at h
    obtain ⟨⟨_, _⟩, hhigh, ⟨_, _⟩, hlow, _, _, _, rfl⟩ := h
    obtain ⟨hsuffix, hlength⟩ := suffix_of_hex4? hhigh
    obtain ⟨hsuffix', hlength'⟩ := suffix_of_hex4? hlow
    exact ⟨(hsuffix'.trans hsuffix).trans (List.suffix_cons ..), Nat.lt_succ_of_lt (Nat.lt_trans hlength' hlength)⟩
  · cases h
  · simp only [Option.map_eq_some_iff, Prod.mk.injEq] at h
    obtain ⟨_, _, _, rfl⟩ := h
    exact ⟨List.suffix_cons .., Nat.lt_succ_self _⟩
  · cases h

theorem suffix_of_newline? (h : newline? cs = some rest) : rest <:+ cs ∧ rest.length < cs.length := by
  unfold newline? at h
  split at h <;> cases h
  · exact ⟨List.suffix_cons .., Nat.lt_succ_self _⟩
  · exact ⟨⟨['\r', '\n'], rfl⟩, by simp only [List.length_cons]; omega⟩

theorem skipLines_suffix (cs : List Char) : skipLines cs <:+ cs := by
  induction cs using skipLines.induct with
  | case1 rest ih | case2 rest ih | case3 rest ih =>
    rw [skipLines]
    exact ih.trans (List.suffix_cons ..)
  | case4 rest ih =>
    rw [skipLines]
    exact ih.trans ⟨['\r', '\n'], rfl⟩
  | case5 cs =>
    rw [skipLines]
    all_goals simp_all

theorem suffix_of_continuation? (h : continuation? cs = some rest) : rest <:+ cs := by
  unfold continuation? at h
  obtain ⟨later, hlater, rfl⟩ := Option.map_eq_some_iff.mp h
  exact (skipLines_suffix later).trans ((suffix_of_newline? hlater).1.trans (List.dropWhile_suffix _))

/-! The characters between quotes -/

def Encloses (cs rest : List Char) (length : Nat) : Prop :=
  ∃ body, cs = body ++ '"' :: rest ∧ length ≤ body.length

/--
Some characters up to a closing quote, more than a length, or that many and all of them plain.
-/
def Spells (cs rest : List Char) (length : Nat) : Prop :=
  ∃ body, cs = body ++ '"' :: rest ∧ (length < body.length ∨ length = body.length ∧ body.all isPlain = true)

variable {later : List Char} {k l : Nat}

theorem Encloses.of_suffix (h : Encloses later rest k) (hsuffix : later <:+ cs)
    (hlength : l + later.length ≤ k + cs.length) : Encloses cs rest l := by
  obtain ⟨body, rfl, hbody⟩ := h
  obtain ⟨before, rfl⟩ := hsuffix
  refine ⟨before ++ body, by rw [List.append_assoc], ?_⟩
  simp only [List.length_append] at hlength ⊢
  omega

theorem Spells.encloses (h : Spells cs rest k) : Encloses cs rest k := by
  obtain ⟨body, hcs, hbody⟩ := h
  exact ⟨body, hcs, by omega⟩

theorem Spells.cons (h : Spells cs rest k) (hc : isPlain c = true) : Spells (c :: cs) rest (k + 1) := by
  obtain ⟨body, rfl, hbody⟩ := h
  exact ⟨c :: body, rfl, by simpa [hc] using hbody⟩

theorem Encloses.spells (h : Encloses later rest k) (hsuffix : later <:+ cs)
    (hlength : l + later.length < k + cs.length) : Spells cs rest l := by
  obtain ⟨body, hcs, hbody⟩ := h.of_suffix hsuffix (l := l + 1) (by omega)
  exact ⟨body, hcs, .inl hbody⟩

theorem spells_lineString?_go : ∀ (fuel : Nat) (text : String) (cs : List Char),
    lineString?.go '"' fuel text cs = some (s, rest) → ∃ k, s.length = text.length + k ∧ Spells cs rest k
  | fuel + 1, text, c :: cs, h => by
    unfold lineString?.go at h
    split at h
    · next hquote =>
      cases h
      exact ⟨0, rfl, [], by rw [hquote]; rfl, .inr ⟨rfl, rfl⟩⟩
    · next hquote =>
      split at h
      · obtain ⟨⟨c', later⟩, hescape, h⟩ := Option.bind_eq_some_iff.mp h
        obtain ⟨k, hk, hbody⟩ := spells_lineString?_go fuel _ _ h
        obtain ⟨hsuffix, hlength⟩ := suffix_of_escape? hescape
        rw [String.length_push] at hk
        refine ⟨k + 1, by omega, hbody.encloses.spells (hsuffix.trans (List.suffix_cons ..)) ?_⟩
        rw [List.length_cons]
        omega
      · next hslash =>
        split at h
        · next htext =>
          obtain ⟨k, hk, hbody⟩ := spells_lineString?_go fuel _ _ h
          rw [String.length_push] at hk
          exact ⟨k + 1, by omega, hbody.cons (by simp_all [isPlain])⟩
        · cases h
  | 0, _, _, h | _ + 1, _, [], h => by simp [lineString?.go] at h

theorem encloses_quotes (cs : List Char) (hrun : k + 2 < (cs.takeWhile (· == '"')).length) :
    Encloses cs (cs.drop (k + 3)) k := by
  have hlt : k + 2 < cs.length := Nat.lt_of_lt_of_le hrun (List.takeWhile_prefix _).length_le
  have hquote : cs[k + 2] = '"' := by
    have hmem := List.all_eq_true.mp List.all_takeWhile _ (List.getElem_mem hrun)
    rwa [(List.takeWhile_prefix _).getElem hrun, beq_iff_eq] at hmem
  refine ⟨cs.take (k + 2), ?_, by rw [List.length_take]; omega⟩
  rw [← hquote, ← List.drop_eq_getElem_cons hlt, List.take_append_drop]

theorem encloses_linesString?_go : ∀ (fuel : Nat) (text : String) (cs : List Char),
    linesString?.go '"' fuel text cs = some (s, rest) → ∃ k, s.length = text.length + k ∧ Encloses cs rest k
  | fuel + 1, text, c :: cs, h => by
    unfold linesString?.go at h
    split at h
    · dsimp only at h
      have hrun := (List.takeWhile_prefix (l := c :: cs) (· == '"')).length_le
      split at h
      · obtain ⟨k, hk, hbody⟩ := encloses_linesString?_go fuel _ _ h
        rw [String.length_pushn] at hk
        refine ⟨_, by rw [hk, Nat.add_assoc], hbody.of_suffix (List.drop_suffix ..) ?_⟩
        rw [List.length_drop]
        omega
      · next hlong =>
        cases h
        exact ⟨_, by rw [String.length_pushn], encloses_quotes _ (by omega)⟩
    · split at h
      · split at h
        · next later hlater =>
          obtain ⟨k, hk, hbody⟩ := encloses_linesString?_go fuel _ _ h
          refine ⟨k, hk, hbody.of_suffix ((suffix_of_continuation? hlater).trans (List.suffix_cons ..)) ?_⟩
          have := (suffix_of_continuation? hlater).length_le
          rw [List.length_cons]
          omega
        · obtain ⟨⟨c', later⟩, hescape, h⟩ := Option.bind_eq_some_iff.mp h
          obtain ⟨k, hk, hbody⟩ := encloses_linesString?_go fuel _ _ h
          obtain ⟨hsuffix, hlength⟩ := suffix_of_escape? hescape
          rw [String.length_push] at hk
          refine ⟨k + 1, by omega, hbody.of_suffix (hsuffix.trans (List.suffix_cons ..)) ?_⟩
          rw [List.length_cons]
          omega
      · split at h
        · next later hlater =>
          obtain ⟨k, hk, hbody⟩ := encloses_linesString?_go fuel _ _ h
          obtain ⟨hsuffix, hlength⟩ := suffix_of_newline? hlater
          rw [String.length_push] at hk
          exact ⟨k + 1, by omega, hbody.of_suffix hsuffix (by omega)⟩
        · split at h
          · obtain ⟨k, hk, hbody⟩ := encloses_linesString?_go fuel _ _ h
            rw [String.length_push] at hk
            refine ⟨k + 1, by omega, hbody.of_suffix (List.suffix_cons ..) ?_⟩
            rw [List.length_cons]
            omega
          · cases h
  | 0, _, _, h | _ + 1, _, [], h => by simp [linesString?.go] at h

theorem spells_string? (h : string? ('"' :: cs) = some (s, rest)) : Spells cs rest s.length := by
  have hempty (k : Nat) : "".length + k = k := Nat.zero_add k
  unfold string? at h
  split at h
  · next later heq =>
    rw [(List.cons.inj heq).2]
    obtain ⟨k, hk, hbody⟩ := encloses_linesString?_go _ _ _ h
    rw [hk, hempty]
    have hsuffix : (newline? later).getD later <:+ later := by
      cases hnewline : newline? later with
      | none => exact List.suffix_refl _
      | some next => exact (suffix_of_newline? hnewline).1
    have hlength := hsuffix.length_le
    refine hbody.spells (hsuffix.trans ⟨['"', '"'], rfl⟩) ?_
    simp only [List.length_cons]
    omega
  · next heq => cases heq
  · next heq =>
    cases heq
    obtain ⟨k, hk, hbody⟩ := spells_lineString?_go _ _ _ h
    rwa [hk, hempty]
  · next heq => cases heq
  · cases h

/--
Text between two quotes that are followed by none is read as itself only if all of it is plain.
-/
theorem plain_of_string? {after : List Char} (h : string? ('"' :: (cs ++ '"' :: rest)) = some (s, after))
    (hrest : '"' ∉ rest) (hlength : cs.length ≤ s.length) : cs.all isPlain = true := by
  obtain ⟨body, hbody, hspells⟩ := spells_string? h
  have hprefix : body <+: cs := by
    rcases List.append_eq_append_iff.mp hbody with ⟨more, rfl, hmore⟩ | ⟨more, rfl, -⟩
    · cases more with
      | nil => simp
      | cons c more =>
        rw [List.cons_append, List.cons.injEq] at hmore
        exact absurd (hmore.2 ▸ List.mem_append_right _ List.mem_cons_self) hrest
    · exact List.prefix_append ..
  have hle := hprefix.length_le
  rcases hspells with hshort | ⟨hsame, hplain⟩
  · omega
  · rwa [← hprefix.eq_of_length (by omega)]

end Arbor.Toml
