import Arbor.Assembly.File
import Arbor.Proofs.Lowering.Level
import Mathlib.Data.List.Lattice
import Mathlib.Data.List.Nodup
import Mathlib.Data.List.Pairwise
import Mathlib.Data.Set.Function

/-!
This module contains the symbols of an assembly file: the labels of its lines and of its data section. It also shows
what the routines of the runtime place and refer to.
-/

namespace Arbor.Assembly

def Line.callee? : Line → Option Label
  | .instruction (.jal routine) => some routine
  | _ => none

def Line.address? : Line → Option Label
  | .instruction (.la _ address) => some address
  | _ => none

def placed (c : List Line) : List Label :=
  c.filterMap Line.label?

def heap : Label :=
  .named "heap"

def File.symbols (f : File) : List Label :=
  FixedString.all.map FixedString.label ++ f.data.labels ++ [heap]
    ++ placed (File.entry ++ f.main ++ File.exit ++ f.runtime)

section Placed

variable {c c' : List Line} {l : Label}

@[simp]
theorem placed_append : placed (c ++ c') = placed c ++ placed c' :=
  List.filterMap_append

theorem mem_placed : l ∈ placed c ↔ Line.label l ∈ c := by
  unfold placed
  rw [List.mem_filterMap]
  constructor
  · rintro ⟨line, hmem, hline⟩
    cases line with
    | label l' =>
      cases hline
      exact hmem
    | instruction i => cases hline
    | comment text => cases hline
  · exact fun h => ⟨_, h, rfl⟩

theorem placed_flatMap {α : Type} {xs : List α} {f : α → List Line} :
    placed (xs.flatMap f) = xs.flatMap fun x => placed (f x) := by
  unfold placed
  rw [List.filterMap_flatMap]

@[simp]
theorem placed_shown {comments : Bool} : placed (Line.shown comments c) = placed c := by
  unfold placed Line.shown
  split
  · rfl
  · rw [List.filterMap_filter]
    congr 1
    funext line
    cases line <;> rfl

end Placed

/-! Texts -/

/--
A name that no number of a label or of an array gives.
-/
def IsOwnName (name : String) : Bool :=
  name.toList.head? != some 'L' && !"arr_".toList.isPrefixOf name.toList

def Label.IsOwn : Label → Bool
  | .named name => IsOwnName name
  | _ => true

theorem Label.toList_numbered (n : Nat) :
    (Label.numbered n).text.toList = 'L' :: Nat.toDigits 10 n := by
  simp [Label.text, toString, Nat.repr_eq_ofList_toDigits]

theorem Label.toList_array (n : Nat) :
    (Label.array n).text.toList = "arr_".toList ++ Nat.toDigits 10 n := by
  simp [Label.text, toString, Nat.repr_eq_ofList_toDigits]

theorem eq_of_toDigits_eq {n m : Nat} (h : Nat.toDigits 10 n = Nat.toDigits 10 m) : n = m := by
  rw [← Nat.ofDigitChars_ten_toDigits (n := n), h, Nat.ofDigitChars_ten_toDigits]

theorem Label.numbered_ne_named {n : Nat} {name : String} (h : IsOwnName name = true) :
    (Label.numbered n).text ≠ name := by
  rintro rfl
  simp [IsOwnName, Label.toList_numbered] at h

theorem Label.array_ne_named {n : Nat} {name : String} (h : IsOwnName name = true) :
    (Label.array n).text ≠ name := by
  rintro rfl
  simp [IsOwnName, Label.toList_array] at h

theorem Label.numbered_ne_array {n m : Nat} : (Label.numbered n).text ≠ (Label.array m).text := by
  intro h
  have h := congrArg String.toList h
  rw [Label.toList_numbered, Label.toList_array] at h
  simp at h

theorem Label.injOn_text : Set.InjOn Label.text {l | l.IsOwn = true} := by
  intro l hl l' hl' heq
  cases l with
  | numbered n =>
    cases l' with
    | numbered m =>
      have heq := congrArg String.toList heq
      rw [toList_numbered, toList_numbered, List.cons.injEq] at heq
      rw [eq_of_toDigits_eq heq.2]
    | array m => exact (numbered_ne_array heq).elim
    | named name => exact (numbered_ne_named hl' heq).elim
  | array n =>
    cases l' with
    | numbered m => exact (numbered_ne_array heq.symm).elim
    | array m =>
      have heq := congrArg String.toList heq
      rw [toList_array, toList_array, List.append_cancel_left_eq] at heq
      rw [eq_of_toDigits_eq heq]
    | named name => exact (array_ne_named hl' heq).elim
  | named name =>
    cases l' with
    | numbered m => exact (numbered_ne_named hl heq.symm).elim
    | array m => exact (array_ne_named hl heq.symm).elim
    | named name' => rw [show name = name' from heq]

/-! Routines -/

namespace Routine

variable {r s : Routine} {l : Line} {t : Label}

theorem refers_lines : ∀ r ∈ all, ∀ l ∈ r.lines,
    (∀ t ∈ l.target?, .label t ∈ r.lines) ∧ (∀ t ∈ l.callee?, ∃ s ∈ r.requirements, t = s.label) ∧
      ∀ t ∈ l.address?, ∃ s ∈ FixedString.all, t = s.label := by
  decide +kernel

theorem target_mem (hl : l ∈ r.lines) (ht : l.target? = some t) : .label t ∈ r.lines :=
  (refers_lines r r.mem_all l hl).1 t ht

theorem exists_requirement (hl : l ∈ r.lines) (ht : l.callee? = some t) :
    ∃ s ∈ r.requirements, t = s.label :=
  (refers_lines r r.mem_all l hl).2.1 t ht

theorem exists_fixedString (hl : l ∈ r.lines) (ht : l.address? = some t) :
    ∃ s : FixedString, t = s.label := by
  obtain ⟨s, -, heq⟩ := (refers_lines r r.mem_all l hl).2.2 t ht
  exact ⟨s, heq⟩

def outsideNames : List Label :=
  FixedString.all.map FixedString.label ++ [heap, .named "main"]

theorem names_distinct : (outsideNames ++ all.flatMap fun r => placed r.lines).Nodup ∧
    ∀ l ∈ outsideNames ++ all.flatMap fun r => placed r.lines, l.IsOwn = true ∧ l = .named l.text := by
  decide +kernel

theorem isOwn_of_mem_names {l : Label} (h : l ∈ outsideNames ++ all.flatMap fun r => placed r.lines) :
    l.IsOwn = true :=
  (names_distinct.2 l h).1

theorem exists_name_of_mem {l : Label} (h : l ∈ outsideNames ++ all.flatMap fun r => placed r.lines) :
    ∃ name, l = .named name :=
  ⟨_, (names_distinct.2 l h).2⟩

theorem disjoint_placed (h : r ≠ s) : (placed r.lines).Disjoint (placed s.lines) := by
  have hnodup := (List.nodup_append.mp names_distinct.1).2.1
  have hpairwise := (List.nodup_flatMap.mp hnodup).2
  have hsymm : Std.Symm (Function.onFun List.Disjoint fun r => placed (lines r)) :=
    ⟨fun _ _ h => List.Disjoint.symm h⟩
  exact hpairwise.forall r.mem_all s.mem_all h

theorem nodup_placed {used : List Routine} (h : used.Nodup) :
    (outsideNames ++ used.flatMap fun r => placed r.lines).Nodup := by
  have hnames := List.nodup_append.mp names_distinct.1
  have hplaced := List.nodup_flatMap.mp hnames.2.1
  rw [List.nodup_append, List.nodup_flatMap]
  refine ⟨hnames.1, ⟨fun r _ => hplaced.1 r r.mem_all, ?_⟩, ?_⟩
  · exact h.imp disjoint_placed
  · intro l hl l' hl'
    obtain ⟨r, -, hr⟩ := List.mem_flatMap.mp hl'
    exact hnames.2.2 l hl l' (List.mem_flatMap.mpr ⟨r, r.mem_all, hr⟩)

end Routine

end Arbor.Assembly
