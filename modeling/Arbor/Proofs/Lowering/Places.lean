import Arbor.Proofs.Lowering.Frame

/-!
This module contains the places of variables on the stack. A place is counted from the bottom of the stack, so it stays
the same when words are pushed, where the offset from the top does not.
-/

namespace Arbor.Lowering.Frame

open Assembly

/--
The newest slot with a name, and how many slots there are below it.
-/
def place? (f : Frame) (name : String) : Option (Nat × Slot) :=
  go f.slots
where
  /-- Search the slots from the newest one on. -/
  go : List Slot → Option (Nat × Slot)
    | [] => none
    | s :: rest => if s.isNamed name then some (rest.length, s) else go rest

variable {f : Frame} {name name' : String} {n : Nat} {slot slot' : Slot}

@[simp]
theorem place?_push {kind : SlotKind} {len : Option Nat} : (f.push kind len).place? name = f.place? name := by
  simp [place?, push, place?.go, Slot.isNamed]

theorem slot_of_place? (h : f.place? name = some (n, slot)) :
    f.slots.reverse[n]? = some slot ∧ slot.name = some name := by
  unfold place? at h
  revert h
  induction f.slots with
  | nil => nofun
  | cons s rest ih =>
    intro h
    unfold place?.go at h
    rw [List.reverse_cons]
    split at h
    · next hname =>
      cases h
      exact ⟨by simp, eq_of_beq hname⟩
    · obtain ⟨hslot, hname⟩ := ih h
      have hlt := (List.getElem?_eq_some_iff.mp hslot).1
      exact ⟨by rw [List.getElem?_append_left hlt, hslot], hname⟩

theorem place?_lt (h : f.place? name = some (n, slot)) : n < f.slots.length := by
  have hlt := (List.getElem?_eq_some_iff.mp (slot_of_place? h).1).1
  rwa [List.length_reverse] at hlt

theorem place?_inj (h : f.place? name = some (n, slot)) (h' : f.place? name' = some (n, slot')) : name = name' := by
  obtain ⟨hslot, hname⟩ := slot_of_place? h
  obtain ⟨hslot', hname'⟩ := slot_of_place? h'
  rw [hslot] at hslot'
  cases hslot'
  rw [hname] at hname'
  exact Option.some.inj hname'

theorem totalSize_eq {slots : List Slot} (h : ∀ s ∈ slots, s.size = wordBytes) :
    totalSize slots = wordBytes * slots.length := by
  induction slots with
  | nil => rfl
  | cons s rest ih =>
    rw [List.forall_mem_cons] at h
    rw [totalSize, h.1, ih h.2, List.length_cons]
    unfold wordBytes
    omega

namespace Nested

theorem of_push {kind : SlotKind} {len : Option Nat} (hf : (f.push kind len).Nested) : f.Nested :=
  ⟨fun s hs => hf.depth_le s (List.mem_cons_of_mem _ hs), fun s hs => hf.size s (List.mem_cons_of_mem _ hs)⟩

theorem bytes_eq (hf : f.Nested) : f.bytes = wordBytes * f.slots.length :=
  totalSize_eq hf.size

theorem resolve?_eq (hf : f.Nested) (name : String) :
    f.resolve? name = (f.place? name).map fun found => (f.bytes - wordBytes * (found.1 + 1), found.2) := by
  have hgo (offset : Int) (slots : List Slot) (hslots : ∀ s ∈ slots, s.size = wordBytes) :
      resolve?.go name offset slots = (place?.go name slots).map fun found =>
        (offset + totalSize slots - wordBytes * (found.1 + 1), found.2) := by
    induction slots generalizing offset with
    | nil => rfl
    | cons s rest ih =>
      rw [List.forall_mem_cons] at hslots
      unfold resolve?.go place?.go
      split
      · rw [totalSize, totalSize_eq hslots.2, hslots.1, Option.map_some]
        congr 2
        unfold wordBytes
        omega
      · rw [ih _ hslots.2, totalSize, Int.add_assoc]
  have heq := hgo 0 f.slots hf.size
  simpa [resolve?, place?, bytes] using heq

theorem place?_of_resolve? (hf : f.Nested) {offset : Int} (h : f.resolve? name = some (offset, slot)) :
    ∃ n, f.place? name = some (n, slot) ∧ offset + wordBytes * (n + 1) = f.bytes := by
  rw [hf.resolve?_eq, Option.map_eq_some_iff] at h
  obtain ⟨⟨n, slot'⟩, hplace, heq⟩ := h
  cases heq
  exact ⟨n, hplace, Int.sub_add_cancel ..⟩

end Nested

end Arbor.Lowering.Frame
