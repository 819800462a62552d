import Arbor.Proofs.Json.Text
import Arbor.Proofs.Value.WellKinded

/-!
This module contains the proof that the text of an array of ints or bools, nested to any depth, is JSON: it reads as the
list of its elements, nested in the same way. So arrays of one kind that print alike are equal.
-/

namespace Arbor

def Kind.brackets : Kind → Nat
  | .array elem => elem.brackets + 1
  | _ => 0

namespace Value

mutual

def toJson : Value → Json
  | int n => .number (.integer n.toInt)
  | bool b => .bool b
  | array _ items => .array (toJsonAll items)
  | _ => .unusable

def toJsonAll : List Value → List Json
  | [] => []
  | v :: vs => v.toJson :: toJsonAll vs

end

def ofJson? : Kind → Json → Option Value
  | .scalar .int, .number (.integer n) => some (int (Int32.ofInt n))
  | .scalar .bool, .bool b => some (bool b)
  | .array elem, .array items => (items.mapM (ofJson? elem)).map (array elem)
  | _, _ => none

theorem toJsonAll_eq (items : List Value) : toJsonAll items = items.map toJson := by
  induction items with
  | nil => rfl
  | cons v rest ih => rw [toJsonAll, ih, List.map_cons]

/-! From JSON -/

theorem mapM_map_eq_some {α β : Type} {encode : α → β} {decode : β → Option α} {xs : List α}
    (h : ∀ x ∈ xs, decode (encode x) = some x) : (xs.map encode).mapM decode = some xs := by
  induction xs with
  | nil => rfl
  | cons x rest ih =>
    rw [List.forall_mem_cons] at h
    rw [List.map_cons, List.mapM_cons, h.1, ih h.2]
    rfl

theorem ofJson?_toJson {v : Value} (hv : v.WellKinded)
    (hkind : v.kind.innermost = .scalar .int ∨ v.kind.innermost = .scalar .bool) :
    ofJson? v.kind v.toJson = some v := by
  induction hv with
  | int n =>
    rw [kind, toJson, ofJson?, Int32.ofInt_toInt]
  | bool b => rfl
  | array elem items hkinds _ ih =>
    have hitems : (items.map toJson).mapM (ofJson? elem) = some items := by
      apply mapM_map_eq_some
      intro w hw
      have hw' := hkinds w hw
      rw [← hw']
      exact ih w hw (by rw [hw']; exact hkind)
    rw [kind, toJson, ofJson?, toJsonAll_eq, hitems]
    rfl
  | float | char | text | null | function => simp [kind, Kind.innermost] at hkind

/-! The characters of an array -/

def shown : Bool × Value → List Char
  | (first, v) => if first then v.display.toList else ' ' :: v.display.toList

theorem toList_intercalate (v : Value) (vs : List Value) :
    (", ".intercalate ((v :: vs).map display)).toList =
      shown (true, v) ++ (vs.map (false, ·)).flatMap fun w => ',' :: shown w := by
  induction vs generalizing v with
  | nil => simp [shown]
  | cons w rest ih =>
    have ih := ih w
    rw [List.map_cons] at ih
    rw [List.map_cons, List.map_cons, String.intercalate_cons_cons, String.toList_append,
      String.toList_append, ih]
    simp [shown]

theorem toList_display_nil (elem : Kind) : (array elem []).display.toList = ['[', ']'] := by
  simp [display, displayAll]

theorem toList_display_cons (elem : Kind) (v : Value) (vs : List Value) :
    (array elem (v :: vs)).display.toList =
      '[' :: (shown (true, v) ++ ((vs.map (false, ·)).flatMap (fun w => ',' :: shown w) ++ [']'])) := by
  rw [display, displayAll_eq, String.toList_append, String.toList_append, toList_intercalate]
  simp

theorem length_le_shown (first : Bool) (v : Value) : v.display.toList.length ≤ (shown (first, v)).length := by
  cases first <;> simp [shown]

theorem length_lt_display (elem : Kind) (v : Value) (vs : List Value) :
    (∀ w ∈ v :: vs, w.display.toList.length < (array elem (v :: vs)).display.toList.length) ∧
      vs.length < (array elem (v :: vs)).display.toList.length := by
  have hrest : (∀ w ∈ vs, w.display.toList.length ≤ ((vs.map (false, ·)).flatMap fun w => ',' :: shown w).length) ∧
      vs.length ≤ ((vs.map (false, ·)).flatMap fun w => ',' :: shown w).length := by
    induction vs with
    | nil => simp
    | cons w rest ih =>
      have hw := length_le_shown false w
      simp only [List.map_cons, List.flatMap_cons, List.length_append, List.length_cons, List.forall_mem_cons]
      refine ⟨⟨by omega, fun u hu => ?_⟩, by omega⟩
      have := ih.1 u hu
      omega
  have hv := length_le_shown true v
  rw [toList_display_cons]
  simp only [List.length_append, List.length_cons, List.forall_mem_cons]
  refine ⟨⟨by omega, fun w hw => ?_⟩, by omega⟩
  have := hrest.1 w hw
  omega

/-! To JSON -/

open Json (Stops isSpace skipSpace value?)

/--
The text of a value is read as its JSON value, whatever may follow a value.
-/
def ReadsBack (bound depth : Nat) (v : Value) : Prop :=
  ∀ rest, Stops rest → value? bound depth (v.display.toList ++ rest) = some (v.toJson, rest)

variable {bound depth : Nat} {v : Value}

theorem readsBack_int (n : Int32) : ReadsBack bound depth (int n) := by
  intro rest hrest
  have hmin := Int32.le_toInt n
  have hmax := Int32.toInt_lt n
  exact Json.value?_number (Json.Number.exact_integer (by omega) (by omega)) bound depth hrest

theorem readsBack_bool (b : Bool) : ReadsBack bound depth (bool b) := by
  intro rest _
  cases b <;> exact Json.value?_scalar (by decide) (by decide) (by decide) _ _ _

theorem ReadsBack.shown (h : ReadsBack bound depth v) (first : Bool) {rest : List Char} (hrest : Stops rest) :
    value? bound depth (shown (first, v) ++ rest) = some (v.toJson, rest) := by
  cases first with
  | true => exact h rest hrest
  | false => exact (Json.value?_space bound depth _).trans (h rest hrest)

theorem exists_display_cons (hkind : v.kind.innermost = .scalar .int ∨ v.kind.innermost = .scalar .bool) :
    ∃ c cs, v.display.toList = c :: cs ∧ isSpace c = false ∧ c ≠ ']' := by
  cases v with
  | int n =>
    have hmin := Int32.le_toInt n
    have hmax := Int32.toInt_lt n
    exact Json.exists_chars_cons (.integer (n := n.toInt) (by omega) (by omega)) (by rintro x ⟨⟩)
  | bool b => cases b <;> exact ⟨_, _, rfl, rfl, by decide⟩
  | array elem items =>
    cases items with
    | nil => exact ⟨'[', _, toList_display_nil elem, rfl, by decide⟩
    | cons w rest => exact ⟨'[', _, toList_display_cons elem w rest, rfl, by decide⟩
  | float | char | text | null | function => simp [kind, Kind.innermost] at hkind

theorem readsBack_array {elem : Kind} {vs : List Value} (hitems : ∀ w ∈ v :: vs, ReadsBack bound depth w)
    (hhead : ∃ c cs, v.display.toList = c :: cs ∧ isSpace c = false ∧ c ≠ ']') (hbound : vs.length < bound) :
    ReadsBack bound (depth + 1) (array elem (v :: vs)) := by
  intro rest _
  obtain ⟨c, cs, hcs, hspace, hclose⟩ := hhead
  have hlist := Json.separated_chars (value? bound depth) Value.shown (fun w => w.2.toJson)
    (rfl : isSpace ']' = false) (by decide) rfl rest (true, v) (vs.map (false, ·)) bound (by simpa using hbound) (by
      intro w hw rest hrest
      apply ReadsBack.shown (hitems w.2 _) w.1 hrest
      simp only [List.mem_cons, List.mem_map] at hw
      rcases hw with rfl | ⟨u, hu, rfl⟩
      · exact List.mem_cons_self
      · exact List.mem_cons_of_mem _ hu)
  have hstart : Value.shown (true, v) = c :: cs := hcs
  rw [toList_display_cons, List.cons_append, Json.value?_array, List.append_assoc, List.append_assoc,
    List.singleton_append, hstart, List.cons_append, Json.listOf_cons _ hspace hclose, ← List.cons_append,
    ← hstart, hlist, toJson, toJsonAll_eq]
  simp

theorem readsBack_of_wellKinded (hv : v.WellKinded)
    (hkind : v.kind.innermost = .scalar .int ∨ v.kind.innermost = .scalar .bool) :
    ∀ {depth}, v.kind.brackets ≤ depth → v.display.toList.length ≤ bound → ReadsBack bound depth v := by
  induction hv with
  | int n => exact fun _ _ => readsBack_int n
  | bool b => exact fun _ _ => readsBack_bool b
  | array elem items hkinds _ ih =>
    intro depth hdepth hbound
    obtain ⟨depth, rfl⟩ : ∃ d, depth = d + 1 := ⟨depth - 1, by rw [kind, Kind.brackets] at hdepth; omega⟩
    rw [kind, Kind.brackets, Nat.add_le_add_iff_right] at hdepth
    cases items with
    | nil =>
      intro rest _
      rw [toList_display_nil]
      exact Json.value?_array bound depth (']' :: rest)
    | cons w rest =>
      obtain ⟨hlength, hcount⟩ := length_lt_display elem w rest
      apply readsBack_array
      · intro u hu
        have hu' := hkinds u hu
        exact ih u hu (by rw [hu']; exact hkind) (by rw [hu']; exact hdepth) (by have := hlength u hu; omega)
      · exact exists_display_cons (by rw [hkinds w List.mem_cons_self]; exact hkind)
      · omega
  | float | char | text | null | function => simp [kind, Kind.innermost] at hkind

theorem read?_display (hv : v.WellKinded)
    (hkind : v.kind.innermost = .scalar .int ∨ v.kind.innermost = .scalar .bool) (hdepth : v.kind.brackets ≤ depth) :
    Json.read? depth v.display = some v.toJson := by
  have hstops : Stops [] := by
    rintro _ ⟨⟩
  have h := readsBack_of_wellKinded hv hkind hdepth (Nat.le_refl _) [] hstops
  rw [List.append_nil] at h
  rw [Json.read?, h]
  rfl

/--
The text of an array of ints or bools is JSON for every reader that goes as deep as the array nests. It reads as the
nested list of the elements, which the array is got back from. So no other array of the same kind has the same text.
-/
theorem display_rereads (hv : v.WellKinded)
    (hkind : v.kind.innermost = .scalar .int ∨ v.kind.innermost = .scalar .bool) :
    (∀ depth, v.kind.brackets ≤ depth → Json.read? depth v.display = some v.toJson) ∧
      ofJson? v.kind v.toJson = some v ∧
      ∀ w, w.WellKinded → w.kind = v.kind → w.display = v.display → w = v := by
  refine ⟨fun depth hdepth => read?_display hv hkind hdepth, ofJson?_toJson hv hkind, ?_⟩
  intro w hw hwkind hdisplay
  rw [← hwkind] at hkind
  have hread := read?_display hw hkind (Nat.le_refl _)
  rw [hdisplay, hwkind, read?_display hv (hwkind ▸ hkind) (Nat.le_refl _)] at hread
  have hback := ofJson?_toJson hw hkind
  rw [← Option.some.inj hread, hwkind, ofJson?_toJson hv (hwkind ▸ hkind)] at hback
  exact (Option.some.inj hback).symm

def raggedArray : Value :=
  array (.array (.scalar .int)) ([[1, -2, 3], [4], []].map fun ns => array (.scalar .int) (ns.map int))

theorem wellKinded_raggedArray : raggedArray.WellKinded := by
  have hints : ∀ ns : List Int32, (array (.scalar .int) (ns.map int)).WellKinded := by
    intro ns
    apply WellKinded.array _ _ <;> rw [List.forall_mem_map]
    · exact fun _ _ => rfl
    · exact fun n _ => .int n
  apply WellKinded.array _ _ <;> rw [List.forall_mem_map]
  · exact fun _ _ => rfl
  · exact fun ns _ => hints ns

theorem display_rereads_ragged :
    raggedArray.WellKinded ∧ raggedArray.kind.innermost = .scalar .int ∧
      raggedArray.display = "[[1, -2, 3], [4], []]" ∧ Json.read? 2 raggedArray.display = some raggedArray.toJson ∧
      ∀ w, w.WellKinded → w.kind = raggedArray.kind → w.display = raggedArray.display → w = raggedArray := by
  have h := display_rereads wellKinded_raggedArray (.inl rfl)
  exact ⟨wellKinded_raggedArray, rfl, by decide +kernel, h.1 2 (by decide), h.2.2⟩

end Value

end Arbor
