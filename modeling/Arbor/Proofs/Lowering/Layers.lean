import Arbor.Proofs.Lowering.NetEffect
import Arbor.Proofs.Lowering.Places

/-!
This module contains the frames that sequences of operations lead to, whether or not these close the scopes that they
open. Their slots lie in layers, one for each scope that is open. So a search that stops at the first slot of another
scope misses none of the current one, and a scope that is closed takes the slots away that were pushed inside of it.
-/

namespace Arbor.Lowering.Frame

open Assembly

/-! Operations -/

inductive Operation where
  | push (kind : SlotKind) (length : Option Nat)
  | pop
  | setKind (n : Nat) (kind : SlotKind)
  | nameTop (name : String)
  | openScope
  | closeScope
  deriving Repr, DecidableEq

def Operation.isOnSlot : Operation → Bool
  | .pop | .setKind .. | .nameTop .. => true
  | .push .. | .openScope | .closeScope => false

/--
The frame after an operation. One that fails leaves the frame as it was.
-/
def apply (f : Frame) : Operation → Frame
  | .push kind length => f.push kind length
  | .pop =>
    match f.pop with
    | .ok (_, g) => g
    | .error _ => f
  | .setKind n kind => f.setKind n kind
  | .nameTop name =>
    match f.nameTop name with
    | .ok g => g
    | .error _ => f
  | .openScope => f.openScope
  | .closeScope => f.closeScope.2

def run (f : Frame) (ops : List Operation) : Frame :=
  ops.foldl apply f

/--
Whether operations close the given number of scopes that are open before them, each scope that they open themselves,
and no other one.
-/
def isBalanced : Nat → List Operation → Bool
  | n, [] => n == 0
  | n, .openScope :: ops => isBalanced (n + 1) ops
  | 0, .closeScope :: _ => false
  | n + 1, .closeScope :: ops => isBalanced n ops
  | n, _ :: ops => isBalanced n ops

/--
The given slots, the oldest ones of the frame, are still there as they were after each operation that takes a single
slot away or changes one. Nothing is asked of the other operations.
-/
def Spares (oldest : List Slot) : Frame → List Operation → Prop
  | _, [] => True
  | f, op :: ops => (op.isOnSlot → oldest <:+ (f.apply op).slots) ∧ Spares oldest (f.apply op) ops

instance decidableSpares (oldest : List Slot) : ∀ f ops, Decidable (Spares oldest f ops)
  | _, [] => .isTrue trivial
  | f, op :: ops =>
    have := decidableSpares oldest (f.apply op) ops
    inferInstanceAs (Decidable ((op.isOnSlot → oldest <:+ (f.apply op).slots) ∧ _))

variable {f : Frame} {name : String} {op : Operation} {ops : List Operation}

theorem apply_eq_or_changes (f : Frame) (op : Operation) : f.apply op = f ∨ f.Changes (f.apply op) := by
  cases op with
  | push kind length => exact .inr (.push kind length)
  | setKind n kind => exact .inr (.setKind n kind)
  | openScope => exact .inr .openScope
  | closeScope => exact .inr .closeScope
  | pop =>
    simp only [apply]
    cases hpop : f.pop with
    | ok popped => exact .inr (.pop hpop)
    | error e => exact .inl rfl
  | nameTop name =>
    simp only [apply]
    cases hname : f.nameTop name with
    | ok g => exact .inr (.nameTop hname)
    | error e => exact .inl rfl

theorem depths_apply (hop : op.isOnSlot) :
    (f.apply op).depth = f.depth ∧
      ((f.apply op).slots.map Slot.depth).Sublist (f.slots.map Slot.depth) := by
  cases op with
  | setKind n kind =>
    have heq := f.map_setKind Slot.depth (fun _ _ => rfl) n kind
    exact ⟨rfl, heq ▸ List.Sublist.refl _⟩
  | pop => cases hslots : f.slots <;> simp [apply, Frame.pop, hslots]
  | nameTop name => cases hslots : f.slots <;> simp [apply, Frame.nameTop, hslots]
  | push | openScope | closeScope => cases hop

/-! Names -/

theorem resolve?_eq_none_iff : f.resolve? name = none ↔ ∀ s ∈ f.slots, s.name ≠ some name := by
  have hgo (start : Int) (slots : List Slot) :
      resolve?.go name start slots = none ↔ ∀ s ∈ slots, s.name ≠ some name := by
    induction slots generalizing start with
    | nil => simp [resolve?.go]
    | cons s rest ih =>
      unfold resolve?.go
      by_cases hname : s.name = some name
      · simp [Slot.isNamed, hname]
      · simp [Slot.isNamed, hname, ih]
  exact hgo 0 f.slots

theorem isSome_resolve?_iff : (f.resolve? name).isSome ↔ ∃ s ∈ f.slots, s.name = some name := by
  rw [Option.isSome_iff_ne_none, ne_eq, resolve?_eq_none_iff]
  simp

theorem Nested.resolve?_eq_some_iff (hf : f.Nested) {offset : Int} {slot : Slot} :
    f.resolve? name = some (offset, slot) ↔
      ∃ above below, f.slots = above ++ slot :: below ∧ slot.name = some name ∧
        (∀ s ∈ above, s.name ≠ some name) ∧ offset = wordBytes * above.length := by
  have hsize (above below : List Slot) (hslots : f.slots = above ++ slot :: below) :
      totalSize above = wordBytes * above.length := by
    apply totalSize_eq
    intro s hs
    apply hf.size
    rw [hslots]
    exact List.mem_append_left _ hs
  rw [Frame.resolve?_eq_some_iff]
  constructor
  · rintro ⟨above, below, hslots, hslot, habove, rfl⟩
    exact ⟨above, below, hslots, hslot, habove, hsize above below hslots⟩
  · rintro ⟨above, below, hslots, hslot, habove, rfl⟩
    exact ⟨above, below, hslots, hslot, habove, (hsize above below hslots).symm⟩

/-! Layers -/

namespace Layered

theorem isDeclared_iff (h : f.Layered) :
    f.isDeclared name ↔ ∃ s ∈ f.slots, s.depth = f.depth ∧ s.name = some name := by
  unfold isDeclared
  rw [h.span_scope.1, List.any_eq_true]
  simp [Slot.isNamed, and_assoc]

theorem apply (h : f.Layered) (op : Operation) : (f.apply op).Layered := by
  rcases f.apply_eq_or_changes op with heq | hchanges
  · rwa [heq]
  · exact h.changes hchanges

theorem run (h : f.Layered) (ops : List Operation) : (f.run ops).Layered := by
  induction ops generalizing f with
  | nil => exact h
  | cons op ops ih => exact ih (h.apply op)

end Layered

/--
A frame inside of a scope that was opened over the given one, with the given number of scopes open inside of that one.
What was pushed since is deeper than all slots that there were before.
-/
structure Inside (base : Frame) (n : Nat) (f : Frame) : Prop where
  layered : f.Layered
  depth : f.depth = base.depth + 1 + n
  older : (f.slots.filter fun s => s.depth ≤ base.depth) = base.slots

namespace Inside

variable {base : Frame} {n : Nat}

theorem start (h : base.Layered) : Inside base 0 base.openScope :=
  ⟨h.openScope, rfl, List.filter_eq_self.mpr fun s hs => decide_eq_true (h.nested.depth_le s hs)⟩

theorem push (h : Inside base n f) (kind : SlotKind) (length : Option Nat) :
    Inside base n (f.push kind length) := by
  refine ⟨h.layered.push kind length, h.depth, ?_⟩
  have hdepth := h.depth
  rw [Frame.push, List.filter_cons_of_neg (by simp; omega)]
  exact h.older

theorem openScope (h : Inside base n f) : Inside base (n + 1) f.openScope :=
  ⟨h.layered.openScope, congrArg (· + 1) h.depth, h.older⟩

theorem closeScope (h : Inside base (n + 1) f) : Inside base n f.closeScope.2 := by
  have hdepth := h.depth
  refine ⟨h.layered.closeScope, ?_, ?_⟩
  · simp only [Frame.closeScope]
    omega
  · rw [h.layered.closeScope_eq, List.filter_filter, ← h.older]
    apply List.filter_congr
    intro s _
    rw [Bool.and_eq_left_iff_imp]
    intro hle
    have := of_decide_eq_true hle
    simp only [bne_iff_ne, ne_eq]
    omega

theorem onSlot (h : Inside base n f) (hop : op.isOnSlot) (hspares : base.slots <:+ (f.apply op).slots) :
    Inside base n (f.apply op) := by
  obtain ⟨hdepth, hdepths⟩ := f.depths_apply hop
  refine ⟨h.layered.apply op, hdepth.trans h.depth, ?_⟩
  -- The slots of the base are among those that are no deeper than it, and of those there are not more than before.
  have hself : (base.slots.filter fun s => s.depth ≤ base.depth) = base.slots := by
    rw [← h.older, List.filter_filter]
    simp only [Bool.and_self]
  have hsub : base.slots.Sublist ((f.apply op).slots.filter fun s => s.depth ≤ base.depth) := by
    have := hspares.sublist.filter fun s => decide (s.depth ≤ base.depth)
    rwa [hself] at this
  have hle : ((f.apply op).slots.filter fun s => s.depth ≤ base.depth).length ≤ base.slots.length := by
    have := hdepths.countP_le (p := fun d => decide (d ≤ base.depth))
    rw [List.countP_map, List.countP_map, List.countP_eq_length_filter, List.countP_eq_length_filter] at this
    rwa [← h.older]
  exact (hsub.eq_of_length_le hle).symm

theorem run (h : Inside base n f) (hbalanced : isBalanced n ops) (hspares : Spares base.slots f ops) :
    Inside base 0 (f.run ops) := by
  -- Every scope that is opened on the way raises the number of those that the operations left over have to close.
  induction ops generalizing n f with
  | nil =>
    cases n with
    | zero => exact h
    | succ n => cases hbalanced
  | cons op ops ih =>
    obtain ⟨hop, hspares⟩ := hspares
    cases op with
    | push kind length => exact ih (h.push kind length) hbalanced hspares
    | openScope => exact ih h.openScope hbalanced hspares
    | closeScope =>
      cases n with
      | zero => cases hbalanced
      | succ n => exact ih h.closeScope hbalanced hspares
    | pop | setKind | nameTop =>
      exact ih (h.onSlot rfl (hop rfl)) (by simpa [isBalanced] using hbalanced) hspares

theorem restored (h : Inside base 0 f) : f.closeScope.2 = base := by
  have hdepth := h.depth
  have hslots : (f.slots.filter fun s => s.depth != f.depth) = base.slots := by
    rw [← h.older]
    apply List.filter_congr
    intro s hs
    have := h.layered.nested.depth_le s hs
    rw [Bool.eq_iff_iff, bne_iff_ne, decide_eq_true_iff]
    omega
  rw [h.layered.closeScope_eq, hslots, hdepth]
  rfl

end Inside

/--
What every sequence of operations leaves of the empty frame. The slots are ordered by their scopes and take up four
bytes each, names are searched for from the newest slot on, closing a scope takes away its own slots, and a scope that
was opened and is closed leaves no trace.
-/
theorem layers_of_run (ops : List Operation) :
    let f := empty.run ops
    f.slots.Pairwise (fun newer older => older.depth ≤ newer.depth) ∧
    (∀ s ∈ f.slots, s.depth ≤ f.depth ∧ s.size = 4) ∧
    f.bytes = 4 * f.slots.length ∧
    (∀ name, (f.resolve? name).isSome ↔ ∃ s ∈ f.slots, s.name = some name) ∧
    (∀ name offset slot, f.resolve? name = some (offset, slot) ↔
      ∃ above below, f.slots = above ++ slot :: below ∧ slot.name = some name ∧
        (∀ s ∈ above, s.name ≠ some name) ∧ offset = 4 * above.length) ∧
    (∀ name, f.isDeclared name ↔ ∃ s ∈ f.slots, s.depth = f.depth ∧ s.name = some name) ∧
    (f.closeScope.1 = 4 * (f.slots.filter fun s => s.depth == f.depth).length ∧
      f.closeScope.2 = ⟨f.slots.filter fun s => s.depth != f.depth, f.depth - 1⟩) ∧
    ∀ inner, isBalanced 0 inner → Spares f.slots f.openScope inner →
      (f.openScope.run inner).closeScope.2 = f := by
  intro f
  have h : f.Layered := Layered.empty.run ops
  have hsize := h.nested.size
  refine ⟨h.sorted, fun s hs => ⟨h.nested.depth_le s hs, hsize s hs⟩, h.nested.bytes_eq,
    fun name => isSome_resolve?_iff, fun name offset slot => h.nested.resolve?_eq_some_iff,
    fun name => h.isDeclared_iff, ⟨?_, ?_⟩, fun inner hbalanced hspares => ?_⟩
  · rw [h.closeScope_eq]
    exact totalSize_eq fun s hs => hsize s (List.mem_of_mem_filter hs)
  · rw [h.closeScope_eq]
  · exact ((Inside.start h).run hbalanced hspares).restored

def unevenOperations : List Operation :=
  [.closeScope, .pop, .push .int none, .nameTop "x", .openScope, .openScope, .push .string none, .closeScope,
    .push (.array .int) (some 3), .nameTop "x"]

def innerOperations : List Operation :=
  [.push .bool none, .nameTop "x", .openScope, .push .int none, .setKind 1 .char, .closeScope, .pop, .push .float none]

theorem layers_of_run_unevenOperations :
    let f := empty.run unevenOperations
    f.slots.map Slot.depth = [1, 0] ∧ isBalanced 0 innerOperations ∧
      Spares f.slots f.openScope innerOperations ∧
      (f.openScope.run innerOperations).closeScope.2 = f := by
  intro f
  have hbalanced : isBalanced 0 innerOperations := by decide
  have hspares : Spares f.slots f.openScope innerOperations := by decide
  obtain ⟨-, -, -, -, -, -, -, hrestored⟩ := layers_of_run unevenOperations
  exact ⟨by decide, hbalanced, hspares, hrestored innerOperations hbalanced hspares⟩

end Arbor.Lowering.Frame
