import Arbor.Toml.Reader

/-!
This module contains what the lines of a document do to its tables: a string that was read stays where it is, whatever
follows it.
-/

namespace Arbor

section Lookup

variable {α β : Type} [BEq α] [LawfulBEq α] [DecidableEq α]

theorem lookup_replace (fields : List (α × β)) (key : α) (v : β) (name : α) :
    (fields.map fun (name, old) => (name, if name = key then v else old)).lookup name =
      (fields.lookup name).map fun old => if name = key then v else old := by
  induction fields with
  | nil => rfl
  | cons field rest ih =>
    obtain ⟨first, old⟩ := field
    rw [List.map_cons, List.lookup_cons, List.lookup_cons, ih]
    cases hname : name == first with
    | true => rw [eq_of_beq hname]; rfl
    | false => rfl

theorem lookup_replace_or_append (fields : List (α × β)) (key : α) (v : β) (name : α) :
    (if (fields.lookup key).isSome then fields.map fun (name, old) => (name, if name = key then v else old)
      else fields ++ [(key, v)]).lookup name = if name = key then some v else fields.lookup name := by
  split
  · next hfound =>
    rw [lookup_replace]
    split
    · next hname =>
      obtain ⟨old, hold⟩ := Option.isSome_iff_exists.mp hfound
      rw [hname, hold, Option.map_some]
    · exact Option.map_id'
  · next hnew =>
    rw [List.lookup_append]
    split
    · next hname =>
      rw [hname, Option.not_isSome_iff_eq_none.mp hnew]
      simp
    · next hname => simp [List.lookup_cons, beq_eq_false_iff_ne.mpr hname]

end Lookup

namespace Toml

def Value.stringAt? : List String → Value → Option String
  | [], .string s => some s
  | key :: path, .table _ fields => (fields.lookup key).bind (stringAt? path)
  | _, _ => none

namespace Table

variable {t t' : Table} {key : String} {v : Value} {path : List String} {byDots : Bool} {f : Table → Option Table}

theorem find?_set (t : Table) (key : String) (v : Value) (name : String) :
    (t.set key v).find? name = if name = key then some v else t.find? name :=
  lookup_replace_or_append t.fields key v name

/--
Every string of a table is a string of another one, at the same path.
-/
def Keeps (t t' : Table) : Prop :=
  ∀ path s, t.toValue.stringAt? path = some s → t'.toValue.stringAt? path = some s

theorem stringAt?_cons : t.toValue.stringAt? (key :: path) = (t.find? key).bind (Value.stringAt? path) := by
  rw [toValue, Value.stringAt?, find?]

theorem Keeps.refl (t : Table) : t.Keeps t :=
  fun _ _ h => h

theorem Keeps.trans {t'' : Table} (h : t.Keeps t') (h' : t'.Keeps t'') : t.Keeps t'' :=
  fun path s hs => h' path s (h path s hs)

theorem keeps_set (h : ∀ path s old, t.find? key = some old → old.stringAt? path = some s → v.stringAt? path = some s) :
    t.Keeps (t.set key v) := by
  intro path s hs
  cases path with
  | nil => simp [toValue, Value.stringAt?] at hs
  | cons name path =>
    rw [stringAt?_cons, find?_set]
    rw [stringAt?_cons] at hs
    split
    · next hname =>
      rw [hname] at hs
      obtain ⟨old, hold, hs⟩ := Option.bind_eq_some_iff.mp hs
      exact h path s old hold hs
    · exact hs

theorem keeps_set_new (h : t.find? key = none) : t.Keeps (t.set key v) :=
  keeps_set fun _ _ _ hold => by rw [h] at hold; cases hold

theorem keeps_set_old {old : Value} (h : t.find? key = some old)
    (hv : ∀ path s, old.stringAt? path = some s → v.stringAt? path = some s) : t.Keeps (t.set key v) := by
  refine keeps_set fun path s old' hold hs => ?_
  rw [h] at hold
  cases hold
  exact hv path s hs

theorem stringAt?_rows (tables : List Value) (path : List String) : (Value.rows tables).stringAt? path = none := by
  cases path <;> rfl

theorem keeps_changeAt (hf : ∀ t t', f t = some t' → t.Keeps t') :
    ∀ (path : List String) (t t' : Table), t.changeAt byDots f path = some t' → t.Keeps t'
  | [], t, t', h => hf t t' h
  | key :: path, t, t', h => by
    unfold changeAt at h
    split at h
    · next hnew =>
      obtain ⟨child, -, h⟩ := Option.bind_eq_some_iff.mp h
      cases h
      exact keeps_set_new hnew
    · cases h
    · next origin fields _ hold =>
      dsimp only at h
      split at h
      · cases h
      · obtain ⟨child, hchild, h⟩ := Option.bind_eq_some_iff.mp h
        cases h
        have hkeeps := keeps_changeAt hf path _ _ hchild
        exact keeps_set_old hold fun path s hs => hkeeps path s hs
    · next tables hold =>
      obtain ⟨later, -, h⟩ := Option.bind_eq_some_iff.mp h
      cases h
      exact keeps_set_old hold fun path s hs => by rw [stringAt?_rows] at hs; cases hs
    · cases h

theorem keeps_add (h : t.add path key v = some t') : t.Keeps t' := by
  refine keeps_changeAt (fun t t' h => ?_) path t t' h
  split at h
  · cases h
  · split at h
    · cases h
    · next hnew =>
      cases h
      exact keeps_set_new (Option.not_isSome_iff_eq_none.mp hnew)

theorem keeps_openTable (h : t.openTable path key = some t') : t.Keeps t' := by
  refine keeps_changeAt (fun t t' h => ?_) path t t' h
  split at h
  · next hnew =>
    cases h
    exact keeps_set_new hnew
  · next fields hold =>
    cases h
    exact keeps_set_old hold fun path s hs => by cases path <;> exact hs
  · cases h

theorem keeps_openRow (h : t.openRow path key = some t') : t.Keeps t' := by
  refine keeps_changeAt (fun t t' h => ?_) path t t' h
  split at h
  · next hnew =>
    cases h
    exact keeps_set_new hnew
  · next tables hold =>
    cases h
    exact keeps_set_old hold fun path s hs => by rw [stringAt?_rows] at hs; cases hs
  · cases h

end Table

namespace Document

open Table

variable {d d' : Document} {cs rest : List Char}

theorem keeps_add {path : List String} {key : String} {v : Value} (h : d.add path key v = some d') :
    d.root.Keeps d'.root := by
  obtain ⟨root, hroot, h⟩ := Option.bind_eq_some_iff.mp h
  cases h
  exact keeps_changeAt (fun _ _ => Table.keeps_add) _ _ _ hroot

theorem keeps_openTable {path : List String} {key : String} (h : d.openTable path key = some d') :
    d.root.Keeps d'.root := by
  obtain ⟨root, hroot, h⟩ := Option.bind_eq_some_iff.mp h
  cases h
  exact Table.keeps_openTable hroot

theorem keeps_openRow {path : List String} {key : String} (h : d.openRow path key = some d') :
    d.root.Keeps d'.root := by
  obtain ⟨root, hroot, h⟩ := Option.bind_eq_some_iff.mp h
  cases h
  exact Table.keeps_openRow hroot

theorem keeps_line? (h : d.line? cs = some (d', rest)) : d.root.Keeps d'.root := by
  unfold line? at h
  split at h
  · simp only [Option.bind_eq_bind, Option.bind_eq_some_iff, Option.some.injEq, Prod.mk.injEq] at h
    obtain ⟨_, _, _, _, _, _, _, _, _, hopen, rfl, _⟩ := h
    exact keeps_openRow hopen
  · simp only [Option.bind_eq_bind, Option.bind_eq_some_iff, Option.some.injEq, Prod.mk.injEq] at h
    obtain ⟨_, _, _, _, _, _, _, hopen, rfl, _⟩ := h
    exact keeps_openTable hopen
  · split at h
    · cases h
      exact .refl _
    · simp only [Option.bind_eq_bind, Option.bind_eq_some_iff, Option.some.injEq, Prod.mk.injEq] at h
      obtain ⟨_, _, _, _, _, hadd, rfl, _⟩ := h
      exact keeps_add hadd

theorem keeps_lines? : ∀ (fuel : Nat) (d : Document) (cs : List Char), lines? fuel d cs = some d' →
    d.root.Keeps d'.root
  | 0, d, [], h | fuel + 1, d, [], h => by
    rw [lines?] at h
    cases h
    exact .refl _
  | 0, d, c :: cs, h => by simp [lines?] at h
  | fuel + 1, d, c :: cs, h => by
    rw [lines?] at h
    · obtain ⟨⟨next, rest⟩, hline, h⟩ := Option.bind_eq_some_iff.mp h
      exact (keeps_line? hline).trans (keeps_lines? fuel next rest h)
    · simp

end Document

end Toml

end Arbor
