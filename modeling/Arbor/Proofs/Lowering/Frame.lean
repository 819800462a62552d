import Arbor.Lowering.Frame

/-!
This module contains the lemmas on frames: what the operations on the newest slots do to a slot that was just
pushed, which slot a name stands for, and that closing a scope takes away exactly what was pushed since it was opened.
-/

namespace Arbor.Lowering

theorem totalSize_append (xs ys : List Slot) : totalSize (xs ++ ys) = totalSize xs + totalSize ys := by
  induction xs with
  | nil => simp [totalSize]
  | cons x xs ih =>
    rw [List.cons_append, totalSize, totalSize, ih]
    omega

theorem totalSize_nonneg {xs : List Slot} (h : ∀ s ∈ xs, s.size = Assembly.wordBytes) :
    0 ≤ totalSize xs := by
  induction xs with
  | nil => simp [totalSize]
  | cons x xs ih =>
    rw [List.forall_mem_cons] at h
    have hx := h.1
    have hxs := ih h.2
    unfold Assembly.wordBytes at hx
    rw [totalSize]
    omega

namespace Frame

def pushNamed (f : Frame) (kind : SlotKind) (length : Option Nat) (name : String) : Frame :=
  { f with slots := ⟨kind, Assembly.wordBytes, f.depth, some name, length⟩ :: f.slots }

variable {f : Frame} {kind : SlotKind} {length : Option Nat}

@[simp]
theorem depth_push : (f.push kind length).depth = f.depth :=
  rfl

@[simp]
theorem depth_pushNamed {name : String} : (f.pushNamed kind length name).depth = f.depth :=
  rfl

@[simp]
theorem bytes_push : (f.push kind length).bytes = f.bytes + Assembly.wordBytes := by
  simp only [push, bytes, totalSize]
  omega

@[simp]
theorem bytes_pushNamed {name : String} :
    (f.pushNamed kind length name).bytes = f.bytes + Assembly.wordBytes := by
  simp only [pushNamed, bytes, totalSize]
  omega

@[simp]
theorem bytes_openScope : f.openScope.bytes = f.bytes :=
  rfl

@[simp]
theorem pop_push :
    (f.push kind length).pop = .ok (⟨kind, Assembly.wordBytes, f.depth, none, length⟩, f) :=
  rfl

@[simp]
theorem nameTop_push {name : String} :
    (f.push kind length).nameTop name = .ok (f.pushNamed kind length name) :=
  rfl

@[simp]
theorem peek?_push_zero :
    (f.push kind length).peek? 0 = some ⟨kind, Assembly.wordBytes, f.depth, none, length⟩ :=
  rfl

@[simp]
theorem peek?_push_succ {n : Nat} : (f.push kind length).peek? (n + 1) = f.peek? n :=
  rfl

@[simp]
theorem setKind_push_zero {other : SlotKind} :
    (f.push kind length).setKind 0 other = f.push other length :=
  rfl

@[simp]
theorem setKind_push_succ {n : Nat} {other : SlotKind} :
    (f.push kind length).setKind (n + 1) other = (f.setKind n other).push kind length :=
  rfl

theorem resolve?_go {name : String} (offset shift : Int) (slots : List Slot) :
    resolve?.go name (offset + shift) slots =
      (resolve?.go name offset slots).map fun found => (found.1 + shift, found.2) := by
  induction slots generalizing offset with
  | nil => rfl
  | cons s rest ih =>
    unfold resolve?.go
    split
    · rfl
    · rw [← ih]
      congr 1
      omega

@[simp]
theorem resolve?_push {name : String} :
    (f.push kind length).resolve? name =
      (f.resolve? name).map fun found => (found.1 + Assembly.wordBytes, found.2) := by
  unfold resolve? push
  rw [resolve?.go, ← resolve?_go]
  simp [Slot.isNamed]

@[simp]
theorem resolve?_openScope {name : String} : f.openScope.resolve? name = f.resolve? name :=
  rfl

theorem resolve?_go_eq_some_iff {name : String} {offset : Int} {slot : Slot} (start : Int) (slots : List Slot) :
    resolve?.go name start slots = some (offset, slot) ↔
      ∃ above below, slots = above ++ slot :: below ∧ slot.name = some name ∧
        (∀ s ∈ above, s.name ≠ some name) ∧ offset = start + totalSize above := by
  induction slots generalizing start with
  | nil => simp [resolve?.go]
  | cons s rest ih =>
    unfold resolve?.go
    by_cases hname : s.name = some name
    · rw [if_pos (by simpa [Slot.isNamed] using hname)]
      constructor
      · intro h
        cases h
        exact ⟨[], rest, rfl, hname, by simp, by simp [totalSize]⟩
      · rintro ⟨above, below, hslots, -, habove, rfl⟩
        cases above with
        | nil =>
          cases hslots
          simp [totalSize]
        | cons t above =>
          cases hslots
          exact absurd hname (habove s List.mem_cons_self)
    · rw [if_neg (by simpa [Slot.isNamed] using hname), ih]
      constructor
      · rintro ⟨above, below, rfl, hslot, habove, rfl⟩
        exact ⟨s :: above, below, rfl, hslot, List.forall_mem_cons.mpr ⟨hname, habove⟩, by
          rw [totalSize, Int.add_assoc]⟩
      · rintro ⟨above, below, hslots, hslot, habove, rfl⟩
        cases above with
        | nil =>
          cases hslots
          exact absurd hslot hname
        | cons t above =>
          cases hslots
          exact ⟨above, below, rfl, hslot, (List.forall_mem_cons.mp habove).2, by
            rw [totalSize, Int.add_assoc]⟩

/--
A name stands for the newest slot that has it, and that slot is as far from the top as the slots above it are big.
-/
theorem resolve?_eq_some_iff {name : String} {offset : Int} {slot : Slot} :
    f.resolve? name = some (offset, slot) ↔
      ∃ above below, f.slots = above ++ slot :: below ∧ slot.name = some name ∧
        (∀ s ∈ above, s.name ≠ some name) ∧ offset = totalSize above := by
  simpa [resolve?] using resolve?_go_eq_some_iff 0 f.slots

theorem map_setKind {α : Type} (g : Slot → α) (hg : ∀ s other, g { s with kind := other } = g s) (n : Nat)
    (other : SlotKind) : (f.setKind n other).slots.map g = f.slots.map g := by
  apply List.ext_getElem?
  intro i
  simp only [setKind, List.getElem?_map, List.getElem?_modify]
  cases f.slots[i]? with
  | none => rfl
  | some s =>
    split
    · exact congrArg some (hg s other)
    · rfl

/--
A frame that has grown by words of the current scope.
-/
structure Extends (f g : Frame) (added : List Slot) : Prop where
  slots : g.slots = added ++ f.slots
  depth : g.depth = f.depth
  size : ∀ s ∈ added, s.size = Assembly.wordBytes
  scope : ∀ s ∈ added, s.depth = f.depth

namespace Extends

variable {g h : Frame} {added more : List Slot}

theorem refl : f.Extends f [] :=
  ⟨rfl, rfl, by simp, by simp⟩

theorem push : f.Extends (f.push kind length) [⟨kind, Assembly.wordBytes, f.depth, none, length⟩] :=
  ⟨rfl, rfl, by simp, by simp⟩

theorem pushNamed (kind : SlotKind) (length : Option Nat) (name : String) :
    f.Extends (f.pushNamed kind length name)
      [⟨kind, Assembly.wordBytes, f.depth, some name, length⟩] :=
  ⟨rfl, rfl, by simp, by simp⟩

theorem trans (hfg : f.Extends g added) (hgh : g.Extends h more) : f.Extends h (more ++ added) := by
  constructor
  · rw [hgh.slots, hfg.slots, List.append_assoc]
  · rw [hgh.depth, hfg.depth]
  · intro s hs
    rcases List.mem_append.mp hs with hs | hs
    · exact hgh.size s hs
    · exact hfg.size s hs
  · intro s hs
    rcases List.mem_append.mp hs with hs | hs
    · rw [hgh.scope s hs, hfg.depth]
    · exact hfg.scope s hs

theorem bytes (hfg : f.Extends g added) : g.bytes = totalSize added + f.bytes := by
  unfold Frame.bytes
  rw [hfg.slots, totalSize_append]

theorem bytes_le (hfg : f.Extends g added) : f.bytes ≤ g.bytes := by
  rw [hfg.bytes]
  have := totalSize_nonneg hfg.size
  omega

end Extends

/--
The slots belong to the current scope or to scopes around it, and each takes up a word.
-/
structure Nested (f : Frame) : Prop where
  depth_le : ∀ s ∈ f.slots, s.depth ≤ f.depth
  size : ∀ s ∈ f.slots, s.size = Assembly.wordBytes

namespace Nested

variable {g : Frame} {added : List Slot}

theorem empty : Nested Frame.empty :=
  ⟨by simp [Frame.empty], by simp [Frame.empty]⟩

theorem openScope (hf : f.Nested) : f.openScope.Nested := by
  constructor
  · intro s hs
    have := hf.depth_le s hs
    simp only [Frame.openScope]
    omega
  · exact hf.size

theorem of_extends (hf : f.Nested) (hfg : f.Extends g added) : g.Nested := by
  constructor
  · intro s hs
    rw [hfg.slots] at hs
    rcases List.mem_append.mp hs with hs | hs
    · exact Nat.le_of_eq ((hfg.scope s hs).trans hfg.depth.symm)
    · rw [hfg.depth]
      exact hf.depth_le s hs
  · intro s hs
    rw [hfg.slots] at hs
    rcases List.mem_append.mp hs with hs | hs
    · exact hfg.size s hs
    · exact hf.size s hs

theorem push (hf : f.Nested) : (f.push kind length).Nested :=
  hf.of_extends .push

theorem pushNamed (hf : f.Nested) (kind : SlotKind) (length : Option Nat) (name : String) :
    (f.pushNamed kind length name).Nested :=
  hf.of_extends (.pushNamed kind length name)

theorem bytes_nonneg (hf : f.Nested) : 0 ≤ f.bytes :=
  totalSize_nonneg hf.size

theorem span_scope (hf : f.Nested) (hfg : f.openScope.Extends g added) :
    g.slots.takeWhile (fun s => s.depth == g.depth) = added ∧
      g.slots.dropWhile (fun s => s.depth == g.depth) = f.slots := by
  have hadded : ∀ s ∈ added, (s.depth == g.depth) = true := by
    intro s hs
    rw [hfg.scope s hs, hfg.depth]
    simp
  have hhead : ∀ s ∈ f.slots.head?, (s.depth == g.depth) = false := by
    intro s hs
    have := hf.depth_le s (List.mem_of_mem_head? hs)
    rw [hfg.depth]
    simp only [Frame.openScope, beq_eq_false_iff_ne]
    omega
  rw [hfg.slots, List.takeWhile_append_of_pos hadded, List.dropWhile_append_of_pos hadded]
  simp only [Frame.openScope]
  cases hslots : f.slots with
  | nil => simp
  | cons s rest =>
    rw [hslots] at hhead
    have hs := hhead s rfl
    simp [hs]

theorem closeScope (hf : f.Nested) (hfg : f.openScope.Extends g added) :
    g.closeScope = (g.bytes - f.bytes, f) := by
  obtain ⟨htake, hdrop⟩ := hf.span_scope hfg
  unfold Frame.closeScope currentScope
  rw [htake, hdrop, hfg.bytes, hfg.depth]
  simp only [Frame.openScope, Frame.bytes, Nat.add_sub_cancel]
  congr 1
  omega

end Nested

end Frame

end Arbor.Lowering
