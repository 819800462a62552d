import Arbor.Json.Reader
import Arbor.Proofs.Json.Number
import Mathlib.Tactic.IntervalCases

/-!
This module contains the proof that a JSON value is read back from its text. What follows the text of a value
has to start with something that no number goes on with: a comma, a closing bracket or the end.
-/

namespace Arbor.Json

section Characters

def stringChars (s : String) : List Char :=
  '"' :: s.toList.flatMap (fun c => (escapeChar c).toList) ++ ['"']

mutual

def chars : Json → List Char
  | .null | .unusable => "null".toList
  | .bool b => (if b then "true" else "false").toList
  | .number n => n.text.toList
  | .string s => stringChars s
  | .array [] => "[]".toList
  | .array (x :: xs) => '[' :: (chars x ++ itemChars xs) ++ [']']
  | .object [] => ['\x7b', '\x7d']
  | .object ((key, x) :: rest) => '\x7b' :: (stringChars key ++ ':' :: chars x ++ fieldChars rest) ++ ['\x7d']

def itemChars : List Json → List Char
  | [] => []
  | x :: xs => ',' :: chars x ++ itemChars xs

def fieldChars : List (String × Json) → List Char
  | [] => []
  | (key, x) :: rest => ',' :: (stringChars key ++ ':' :: chars x) ++ fieldChars rest

end

theorem toList_writeString (out s : String) :
    (writeString out s).toList = out.toList ++ stringChars s := by
  have go : ∀ (cs : List Char) (out : String),
      (cs.foldl (fun out c => out ++ escapeChar c) out).toList =
        out.toList ++ cs.flatMap fun c => (escapeChar c).toList := by
    intro cs
    induction cs with
    | nil => simp
    | cons c cs ih => intro out; simp [ih]
  simp [writeString, stringChars, String.foldl_eq_foldl_toList, go]

mutual

theorem toList_write (out : String) : ∀ j : Json, (write out j).toList = out.toList ++ chars j
  | .null | .unusable | .bool _ | .number _ => by simp [write, chars]
  | .string s => by rw [write, chars, toList_writeString]
  | .array [] => by simp [write, chars]
  | .array (x :: xs) => by simp [write, chars, toList_writeItems _ xs, toList_write _ x]
  | .object [] => by simp [write, chars]
  | .object ((key, x) :: rest) => by
    simp [write, chars, toList_writeFields _ rest, toList_write _ x, toList_writeString]

theorem toList_writeItems (out : String) : ∀ xs : List Json,
    (writeItems out xs).toList = out.toList ++ itemChars xs
  | [] => by simp [writeItems, itemChars]
  | x :: xs => by simp [writeItems, itemChars, toList_writeItems _ xs, toList_write _ x]

theorem toList_writeFields (out : String) : ∀ fields : List (String × Json),
    (writeFields out fields).toList = out.toList ++ fieldChars fields
  | [] => by simp [writeFields, fieldChars]
  | (key, x) :: rest => by
    simp [writeFields, fieldChars, toList_writeFields _ rest, toList_write _ x, toList_writeString]

end

theorem toList_render (j : Json) : j.render.toList = chars j := by
  rw [render, toList_write]
  rfl

theorem itemChars_eq_flatMap (xs : List Json) : itemChars xs = xs.flatMap (fun x => ',' :: chars x) := by
  induction xs with
  | nil => rfl
  | cons x xs ih => simp [itemChars, ih]

def oneFieldChars (f : String × Json) : List Char :=
  stringChars f.1 ++ ':' :: chars f.2

theorem chars_object_cons (f : String × Json) (fields : List (String × Json)) :
    chars (.object (f :: fields)) = '\x7b' :: (oneFieldChars f ++ fieldChars fields) ++ ['\x7d'] := by
  rw [chars, oneFieldChars]

theorem fieldChars_cons (f : String × Json) (fields : List (String × Json)) :
    fieldChars (f :: fields) = ',' :: oneFieldChars f ++ fieldChars fields := by
  rw [fieldChars, oneFieldChars]

theorem fieldChars_eq_flatMap (fields : List (String × Json)) :
    fieldChars fields = fields.flatMap (fun f => ',' :: oneFieldChars f) := by
  induction fields with
  | nil => rw [fieldChars, List.flatMap_nil]
  | cons f fields ih => rw [fieldChars_cons, ih, List.flatMap_cons]

end Characters

section Strings

theorem unicodeEscape?_control {c : Char} (h : c.toNat < 0x20) (rest : List Char) :
    unicodeEscape? (List.replicate (4 - (Nat.toDigits 16 c.toNat).length) '0' ++
      Nat.toDigits 16 c.toNat ++ rest) = some (some c, rest) := by
  obtain ⟨k, hk, rfl⟩ : ∃ k < 32, c = Char.ofNat k := ⟨c.toNat, h, (Char.ofNat_toNat c).symm⟩
  interval_cases k <;> rfl

theorem readString?_escape (fuel : Nat) (text : String) (c : Char) (rest : List Char) :
    readString?.go (fuel + 1) (some text) ((escapeChar c).toList ++ rest) =
      readString?.go fuel (some (text.push c)) rest := by
  unfold escapeChar
  split
  next h => subst h; rfl
  split
  next h => subst h; rfl
  split
  next h => subst h; rfl
  split
  next h => subst h; rfl
  split
  next h => subst h; rfl
  split
  next h => subst h; rfl
  split
  next h => subst h; rfl
  split
  next h =>
    show readString?.go (fuel + 1) (some text) ((("\\u" : String) ++ String.ofList _).toList ++ rest) = _
    rw [String.toList_append, List.append_assoc]
    show readString?.go (fuel + 1) (some text) ('\\' :: 'u' :: ((String.ofList _).toList ++ rest)) = _
    rw [readString?.go, String.toList_ofList, unicodeEscape?_control h]
    rfl
  next hquote hbackslash _ _ _ _ _ hcontrol =>
    show readString?.go (fuel + 1) (some text) (c.toString.toList ++ rest) = _
    rw [Char.toString, String.toList_singleton, List.singleton_append, readString?.go, if_neg hcontrol]
    · rfl
    all_goals grind

theorem readString?_go (cs : List Char) (text : String) (rest : List Char) {fuel : Nat}
    (h : cs.length ≤ fuel) :
    readString?.go fuel (some text) (cs.flatMap (fun c => (escapeChar c).toList) ++ '"' :: rest) =
      some (some (text ++ String.ofList cs), rest) := by
  induction cs generalizing text fuel with
  | nil =>
    rw [List.flatMap_nil, List.nil_append, readString?.go]
    simp
  | cons c cs ih =>
    cases fuel with
    | zero => simp at h
    | succ fuel =>
      rw [List.length_cons, Nat.add_le_add_iff_right] at h
      rw [List.flatMap_cons, List.append_assoc, readString?_escape, ih _ h]
      simp [← String.toList_inj]

theorem readString?_chars (s : String) (rest : List Char) {bound : Nat} (h : s.length ≤ bound) :
    readString? bound (s.toList.flatMap (fun c => (escapeChar c).toList) ++ '"' :: rest) =
      some (some s, rest) := by
  rw [readString?, readString?_go _ _ _ (by rwa [String.length_toList])]
  simp

end Strings

section Values

/--
A value that can be written: nothing in it is unusable, and its whole numbers fit 64 bits.
-/
inductive Usable : Json → Prop
  | null : Usable .null
  | bool (b : Bool) : Usable (.bool b)
  | integer {n : Int} (hmin : -2 ^ 63 ≤ n) (hmax : n < 2 ^ 64) : Usable (.number (.integer n))
  | real (x : Float) : Usable (.number (.real x))
  | string (s : String) : Usable (.string s)
  | array {xs : List Json} (h : ∀ x ∈ xs, Usable x) : Usable (.array xs)
  | object {fields : List (String × Json)} (h : ∀ f ∈ fields, Usable f.2) : Usable (.object fields)

inductive HasReal (x : Float) : Json → Prop
  | here : HasReal x (.number (.real x))
  | item {y : Json} {xs : List Json} (hmem : y ∈ xs) (h : HasReal x y) : HasReal x (.array xs)
  | field {f : String × Json} {fields : List (String × Json)} (hmem : f ∈ fields) (h : HasReal x f.2) :
    HasReal x (.object fields)

mutual

def nesting : Json → Nat
  | .array xs => itemNesting xs + 1
  | .object fields => fieldNesting fields + 1
  | _ => 0

def itemNesting : List Json → Nat
  | [] => 0
  | x :: xs => max (nesting x) (itemNesting xs)

def fieldNesting : List (String × Json) → Nat
  | [] => 0
  | (_, x) :: rest => max (nesting x) (fieldNesting rest)

end

theorem nesting_le_of_mem_items {x : Json} {xs : List Json} (h : x ∈ xs) : nesting x ≤ itemNesting xs := by
  induction h with
  | head => exact Nat.le_max_left _ _
  | tail _ _ ih => exact Nat.le_trans ih (Nat.le_max_right _ _)

theorem nesting_le_of_mem_fields {f : String × Json} {fields : List (String × Json)} (h : f ∈ fields) :
    nesting f.2 ≤ fieldNesting fields := by
  induction h with
  | head => exact Nat.le_max_left _ _
  | tail _ _ ih => exact Nat.le_trans ih (Nat.le_max_right _ _)

/--
What a number may be followed by.
-/
def Stops (rest : List Char) : Prop :=
  ∀ c ∈ rest.head?, isNumberChar c = false

theorem scalar?_number {c : Char} (hc : isNumberChar c) (bound : Nat) (cs : List Char) :
    scalar? bound (c :: cs) = (number? ((c :: cs).takeWhile isNumberChar)).map fun n? =>
      (ofMeaning .number n?, (c :: cs).dropWhile isNumberChar) := by
  rw [scalar?]
  all_goals
    rintro _ h
    cases h
    cases hc

theorem skipSpace_cons {c : Char} (h : isSpace c = false) (cs : List Char) :
    skipSpace (c :: cs) = c :: cs := by
  simp [skipSpace, h]

theorem isSpace_of_isNumberChar {c : Char} (h : isNumberChar c) : isSpace c = false := by
  by_contra hspace
  simp only [isSpace, Bool.not_eq_false, Bool.or_eq_true, beq_iff_eq] at hspace
  rcases hspace with ((rfl | rfl) | rfl) | rfl <;> cases h

theorem value?_scalar {c : Char} (hspace : isSpace c = false) (harray : c ≠ '[') (hobject : c ≠ '\x7b')
    (bound depth : Nat) (cs : List Char) :
    value? bound depth (c :: cs) = scalar? bound (c :: cs) := by
  rw [value?.eq_def]
  dsimp only
  rw [skipSpace_cons hspace]
  split <;> simp_all

theorem value?_space (bound depth : Nat) (cs : List Char) :
    value? bound depth (' ' :: cs) = value? bound depth cs := by
  rw [value?.eq_def, value?.eq_def bound depth cs]
  rfl

theorem value?_array (bound depth : Nat) (cs : List Char) :
    value? bound (depth + 1) ('[' :: cs) =
      (listOf (value? bound depth) ']' bound cs).map fun (xs, rest) => (.array xs, rest) := by
  rw [value?.eq_def]
  rfl

theorem value?_object (bound depth : Nat) (cs : List Char) :
    value? bound (depth + 1) ('\x7b' :: cs) =
      (listOf (field? (value? bound depth) bound) '\x7d' bound cs).map fun (fields, rest) =>
        (objectOf fields, rest) := by
  rw [value?.eq_def]
  rfl

theorem takeWhile_of_stops {rest : List Char} (h : Stops rest) : rest.takeWhile isNumberChar = [] := by
  cases rest with
  | nil => rfl
  | cons c rest => exact List.takeWhile_cons_of_neg (by simp [h c rfl])

theorem dropWhile_of_stops {rest : List Char} (h : Stops rest) : rest.dropWhile isNumberChar = rest := by
  cases rest with
  | nil => rfl
  | cons c rest => exact List.dropWhile_cons_of_neg (by simp [h c rfl])

theorem value?_number {n : Number} (h : n.Exact) (bound depth : Nat) {rest : List Char} (hrest : Stops rest) :
    value? bound depth (n.text.toList ++ rest) = some (.number n, rest) := by
  have hnumeric := h.numeric
  have htake : (n.text.toList ++ rest).takeWhile isNumberChar = n.text.toList := by
    rw [List.takeWhile_append_of_pos hnumeric, takeWhile_of_stops hrest, List.append_nil]
  have hdrop : (n.text.toList ++ rest).dropWhile isNumberChar = rest := by
    rw [List.dropWhile_append_of_pos hnumeric, dropWhile_of_stops hrest]
  cases hcs : n.text.toList with
  | nil =>
    rw [Number.Exact, hcs] at h
    cases h
  | cons c cs =>
    have hc : isNumberChar c := hnumeric c (hcs ▸ List.mem_cons_self)
    rw [hcs] at htake hdrop
    rw [List.cons_append] at htake hdrop ⊢
    rw [value?_scalar (isSpace_of_isNumberChar hc) (by rintro rfl; cases hc) (by rintro rfl; cases hc),
      scalar?_number hc, htake, hdrop, ← hcs, h]
    rfl

theorem value?_string (s : String) (depth : Nat) (rest : List Char) {bound : Nat} (h : s.length ≤ bound) :
    value? bound depth (stringChars s ++ rest) = some (.string s, rest) := by
  rw [stringChars, List.append_assoc, List.cons_append,
    value?_scalar (by decide) (by decide) (by decide), scalar?]
  have := readString?_chars s rest h
  rw [List.singleton_append, this]
  rfl

theorem separated_chars {α β : Type} (item : List Char → Option (β × List Char)) {close : Char}
    (write : α → List Char) (read : α → β) (hclose : isSpace close = false) (hcomma : close ≠ ',')
    (hnumber : isNumberChar close = false) (rest : List Char) :
    ∀ (x : α) (xs : List α) (fuel : Nat), xs.length < fuel →
      (∀ y ∈ x :: xs, ∀ rest, Stops rest → item (write y ++ rest) = some (read y, rest)) →
      separated item close fuel (write x ++ (xs.flatMap (fun y => ',' :: write y) ++ close :: rest)) =
        some ((x :: xs).map read, rest)
  | x, [], fuel + 1, _, hitem => by
    -- An element may be a number, which would go on over a digit.
    have hstops : Stops (close :: rest) := by
      rintro _ ⟨⟩
      exact hnumber
    rw [List.flatMap_nil, List.nil_append, separated, hitem x List.mem_cons_self _ hstops,
      Option.bind_eq_bind, Option.bind_some]
    dsimp only
    rw [skipSpace_cons hclose]
    simp
  | x, y :: ys, fuel + 1, hfuel, hitem => by
    have ih := separated_chars item write read hclose hcomma hnumber rest y ys fuel
      (Nat.lt_of_succ_lt_succ hfuel) fun z hz => hitem z (List.mem_cons_of_mem _ hz)
    have hstops : Stops (',' :: (write y ++ (ys.flatMap (fun y => ',' :: write y) ++ close :: rest))) := by
      rintro _ ⟨⟩
      rfl
    rw [List.flatMap_cons, List.cons_append, List.cons_append, List.append_assoc, separated,
      hitem x List.mem_cons_self _ hstops]
    show (separated item close fuel (write y ++ _)).bind _ = _
    rw [ih]
    rfl

theorem listOf_cons {α : Type} (item : List Char → Option (α × List Char)) {close c : Char}
    (hspace : isSpace c = false) (hclose : c ≠ close) (bound : Nat) (cs : List Char) :
    listOf item close bound (c :: cs) = separated item close bound (c :: cs) := by
  rw [listOf, skipSpace_cons hspace]
  exact if_neg hclose

theorem exists_chars_cons {j : Json} (hu : Usable j) (hx : ∀ x, HasReal x j → (Number.real x).Exact) :
    ∃ c cs, chars j = c :: cs ∧ isSpace c = false ∧ c ≠ ']' := by
  have number {n : Number} (h : n.Exact) : ∃ c cs, n.text.toList = c :: cs ∧ isSpace c = false ∧ c ≠ ']' := by
    cases hcs : n.text.toList with
    | nil =>
      rw [Number.Exact, hcs] at h
      cases h
    | cons c cs =>
      have hc : isNumberChar c := h.numeric c (hcs ▸ List.mem_cons_self)
      exact ⟨c, cs, rfl, isSpace_of_isNumberChar hc, by rintro rfl; cases hc⟩
  cases hu with
  | null => exact ⟨_, _, rfl, rfl, by decide⟩
  | bool b => cases b <;> exact ⟨_, _, rfl, rfl, by decide⟩
  | integer hmin hmax => exact number (Number.exact_integer hmin hmax)
  | real x => exact number (hx x .here)
  | string s => exact ⟨_, _, rfl, rfl, by decide⟩
  | @array xs h => cases xs <;> exact ⟨_, _, rfl, rfl, by decide⟩
  | @object fields h =>
    rcases fields with _ | ⟨⟨key, x⟩, rest⟩ <;> exact ⟨_, _, rfl, rfl, by decide⟩

theorem length_le_of_mem_items {x : Json} {xs : List Json} (h : x ∈ xs) :
    (chars x).length ≤ (itemChars xs).length := by
  induction h with
  | head => simp [itemChars]; omega
  | tail _ _ ih => simp [itemChars]; omega

theorem length_le_itemChars (xs : List Json) : xs.length ≤ (itemChars xs).length := by
  induction xs with
  | nil => exact Nat.le_refl 0
  | cons x xs ih => simp [itemChars]; omega

theorem length_le_of_mem_fields {f : String × Json} {fields : List (String × Json)} (h : f ∈ fields) :
    (stringChars f.1).length + (chars f.2).length ≤ (fieldChars fields).length := by
  induction h with
  | head => simp [fieldChars]; omega
  | tail _ _ ih => simp [fieldChars]; omega

theorem length_le_fieldChars (fields : List (String × Json)) : fields.length ≤ (fieldChars fields).length := by
  induction fields with
  | nil => exact Nat.le_refl 0
  | cons f fields ih => simp [fieldChars]; omega

theorem escapeChar_ne_empty (c : Char) : escapeChar c ≠ "" := by
  unfold escapeChar
  repeat' split
  all_goals simp [← String.toList_inj]

theorem length_le_stringChars (s : String) : s.length ≤ (stringChars s).length := by
  have go (cs : List Char) : cs.length ≤ (cs.flatMap fun c => (escapeChar c).toList).length := by
    induction cs with
    | nil => exact Nat.le_refl 0
    | cons c cs ih =>
      have : (escapeChar c).toList.length ≠ 0 := by simpa using escapeChar_ne_empty c
      rw [List.flatMap_cons, List.length_append, List.length_cons]
      omega
  have := go s.toList
  rw [String.length_toList] at this
  rw [stringChars, List.length_append, List.length_cons]
  omega

section Lists

variable {depth bound : Nat}

/--
A value is read back from its text, whatever may follow a value.
-/
def ReadBack (bound depth : Nat) (j : Json) : Prop :=
  ∀ rest, Stops rest → value? bound depth (chars j ++ rest) = some (j, rest)

theorem value?_items {x : Json} {xs : List Json} (hitems : ∀ y ∈ x :: xs, ReadBack bound depth y)
    (hhead : ∃ c cs, chars x = c :: cs ∧ isSpace c = false ∧ c ≠ ']') (hbound : xs.length < bound) :
    ReadBack bound (depth + 1) (.array (x :: xs)) := by
  intro rest _
  obtain ⟨c, cs, hcs, hspace, hclose⟩ := hhead
  have hclosing : isSpace ']' = false := rfl
  have hlist := separated_chars (value? bound depth) chars id hclosing (by decide) rfl rest x xs bound hbound
    hitems
  rw [chars, List.cons_append, List.cons_append, value?_array]
  rw [itemChars_eq_flatMap, List.append_assoc, List.append_assoc, List.singleton_append]
  rw [hcs, List.cons_append, listOf_cons _ hspace hclose, ← List.cons_append, ← hcs, hlist, List.map_id]
  rfl

theorem field?_chars {f : String × Json} (hvalue : ReadBack bound depth f.2) (hname : f.1.length ≤ bound)
    {rest : List Char} (hrest : Stops rest) :
    field? (value? bound depth) bound (oneFieldChars f ++ rest) = some ((some f.1, f.2), rest) := by
  have hname : fieldName? bound (stringChars f.1 ++ ':' :: (chars f.2 ++ rest)) =
      some (some f.1, chars f.2 ++ rest) := by
    have := readString?_chars f.1 (':' :: (chars f.2 ++ rest)) hname
    rw [stringChars, List.append_assoc, List.cons_append, fieldName?, skipSpace_cons (by decide),
      List.singleton_append]
    show (readString? bound _).bind _ = _
    rw [this]
    rfl
  rw [oneFieldChars, List.append_assoc, List.cons_append, field?, hname]
  show (value? bound depth (chars f.2 ++ rest)).bind _ = _
  rw [hvalue rest hrest]
  rfl

theorem objectOf_map (fields : List (String × Json)) :
    objectOf (fields.map fun f => (some f.1, f.2)) = .object fields := by
  have h : (fields.map fun f => (some f.1, f.2)).mapM
      (fun f : Option String × Json => f.1.map (·, f.2)) = some fields := by
    rw [List.mapM_map]
    exact (List.mapM_pure (m := Option) (f := id)).trans (by rw [List.map_id]; rfl)
  rw [objectOf]
  exact congrArg (ofMeaning .object) h

theorem value?_fields {f : String × Json} {fields : List (String × Json)}
    (hfields : ∀ g ∈ f :: fields, ReadBack bound depth g.2 ∧ g.1.length ≤ bound)
    (hbound : fields.length < bound) : ReadBack bound (depth + 1) (.object (f :: fields)) := by
  intro rest _
  have hclosing : isSpace '\x7d' = false := rfl
  have hlist := separated_chars (field? (value? bound depth) bound) oneFieldChars
    (fun g => (some g.1, g.2)) hclosing (by decide) rfl rest f fields bound hbound
    fun g hg rest hrest => field?_chars (hfields g hg).1 (hfields g hg).2 hrest
  obtain ⟨cs, hcs⟩ : ∃ cs, oneFieldChars f = '"' :: cs := ⟨_, rfl⟩
  rw [chars_object_cons, List.cons_append, List.cons_append, value?_object]
  rw [fieldChars_eq_flatMap, List.append_assoc, List.append_assoc, List.singleton_append]
  rw [hcs, List.cons_append, listOf_cons _ (by decide) (by decide), ← List.cons_append, ← hcs, hlist]
  exact congrArg (fun j => some (j, rest)) (objectOf_map (f :: fields))

end Lists

theorem readBack_of_usable {j : Json} (hu : Usable j) : ∀ {depth bound : Nat},
    (∀ x, HasReal x j → (Number.real x).Exact) → nesting j ≤ depth → (chars j).length ≤ bound →
      ReadBack bound depth j := by
  -- The text of a part is shorter than the whole one, so the bound on its length does for the parts as well.
  induction hu with
  | null =>
    intro depth bound _ _ _ rest _
    exact value?_scalar (by decide) (by decide) (by decide) _ _ _
  | bool b =>
    intro depth bound _ _ _ rest _
    cases b <;> exact value?_scalar (by decide) (by decide) (by decide) _ _ _
  | integer hmin hmax =>
    intro depth bound _ _ _ rest hrest
    exact value?_number (Number.exact_integer hmin hmax) bound depth hrest
  | real x =>
    intro depth bound hx _ _ rest hrest
    exact value?_number (hx x .here) bound depth hrest
  | string s =>
    intro depth bound _ _ hbound rest _
    exact value?_string s depth rest (Nat.le_trans (length_le_stringChars s) hbound)
  | @array xs husable ih =>
    intro depth bound hx hdepth hbound
    obtain ⟨depth, rfl⟩ : ∃ d, depth = d + 1 := ⟨depth - 1, by rw [nesting] at hdepth; omega⟩
    rw [nesting, Nat.add_le_add_iff_right] at hdepth
    cases xs with
    | nil =>
      intro rest _
      exact value?_array bound depth (']' :: rest)
    | cons x xs =>
      have hlength : (chars (.array (x :: xs))).length = (itemChars (x :: xs)).length + 1 := by
        simp [chars, itemChars, Nat.add_assoc]
      apply value?_items
      · intro y hy
        have hle := length_le_of_mem_items hy
        refine ih y hy (fun r hr => hx r (.item hy hr)) ?_ (by omega)
        exact Nat.le_trans (nesting_le_of_mem_items hy) hdepth
      · exact exists_chars_cons (husable x List.mem_cons_self) fun r hr => hx r (.item List.mem_cons_self hr)
      · have := length_le_itemChars (x :: xs)
        rw [List.length_cons] at this
        omega
  | @object fields husable ih =>
    intro depth bound hx hdepth hbound
    obtain ⟨depth, rfl⟩ : ∃ d, depth = d + 1 := ⟨depth - 1, by rw [nesting] at hdepth; omega⟩
    rw [nesting, Nat.add_le_add_iff_right] at hdepth
    cases fields with
    | nil =>
      intro rest _
      exact value?_object bound depth ('\x7d' :: rest)
    | cons f fields =>
      have hlength : (chars (.object (f :: fields))).length = (fieldChars (f :: fields)).length + 1 := by
        rw [chars_object_cons, fieldChars_cons]
        simp [Nat.add_assoc]
      apply value?_fields
      · intro g hg
        have hle := length_le_of_mem_fields hg
        refine ⟨ih g hg (fun r hr => hx r (.field hg hr)) ?_ (by omega), ?_⟩
        · exact Nat.le_trans (nesting_le_of_mem_fields hg) hdepth
        · have := length_le_stringChars g.1
          omega
      · have := length_le_fieldChars (f :: fields)
        rw [List.length_cons] at this
        omega

/--
The text of a value is read as the value wherever its floats are read back and the reader goes as deep as the
value nests.
-/
theorem read?_render {j : Json} (hu : Usable j) (hx : ∀ x, HasReal x j → (Number.real x).Exact) {depth : Nat}
    (hdepth : nesting j ≤ depth) : read? depth j.render = some j := by
  have hstops : Stops [] := by
    rintro _ ⟨⟩
  have h := readBack_of_usable hu hx hdepth (Nat.le_refl _) [] hstops
  rw [List.append_nil] at h
  rw [read?, toList_render, h]
  rfl

end Values

end Arbor.Json
