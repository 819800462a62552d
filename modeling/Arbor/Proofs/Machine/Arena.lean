import Arbor.Proofs.Machine.Bodies
import Mathlib.Algebra.GroupWithZero.Nat

/-!
This module contains the memory for the arrays of a program: the regions of the data section one after the other, and
behind them the heap. A new array gets a region apart from those of all other arrays.
-/

namespace Arbor.Machine

open Agreement Assembly Evaluation
open Lowering (Frame Slot SlotKind)

def Region.behind (r : Region) : Word :=
  r.header + .ofNat 32 (4 * (r.length + 1))

namespace Heap

def Pointer (H : Heap) (w : Word) : Prop :=
  ∃ memory, H.holds w memory

def behind (H : Heap) (r : Region) : Heap where
  place := H.place
  holds w memory := w = r.behind ∧ H.holds r.header memory
  stands w memory kind a v := w = r.behind ∧ H.stands r.header memory kind a v

inductive After (H : Heap) (r : Region) : Heap → Prop where
  | same : After H r H
  | behind : H.Pointer r.header → After H r (H.behind r)

end Heap

namespace Workspace

variable {p : Workspace} {n m : Nat} {a w : Word} {core : Core} {f : Frame} {kept : Nat → Word} {s : State}
  {slot : Slot}
  {b : Binding} {r : Region} {len : Option Nat} {name : String} {elem : Scalar} {items : List Value} {heap : Heap}

theorem Holds.loadWord_of_spares (h : p.Holds f kept s core) (ha : CoversWord p.Spares a) :
    core.loadWord a = p.start.core.loadWord a := by
  apply Core.loadWord_of_bytes
  intro x hx
  obtain ⟨j, hj, rfl⟩ := exists_add_of_sub_lt hx
  exact h.memory _ (ha j hj)

theorem Holds.pointed (h : p.Holds f kept s core) (hhp : core.get .hp = r.header) :
    (p.withHeap (p.heap.behind r)).Holds f kept s (core.set .hp r.behind) := by
  have hbeside {P : Word → (Word → BitVec 8) → Prop} (hP : p.Beside core P) :
      p.Beside (core.set .hp r.behind) fun w memory => w = r.behind ∧ P r.header memory := by
    obtain ⟨memory, hheap, hbytes⟩ := hP
    exact ⟨memory, ⟨Core.get_set (by decide), hhp ▸ hheap⟩, hbytes⟩
  refine ⟨h.le, (Core.get_set_of_ne (by decide)).trans h.sp, ?_, h.kept,
    fun a ha => h.memory a ⟨ha.spared, ha.stack, ha.regions⟩, hbeside h.heap⟩
  apply h.bound.mono _ fun _ _ h => h
  intro n _ slot b hb
  exact ⟨hb.lt, hb.kind, hb.cell, hb.array, fun scalar hscalar hother => hbeside (hb.other scalar hscalar hother)⟩

/-! Regions for new arrays -/

/--
A region that can be made into an array: it is apart from the stack and from the arrays.
-/
structure Vacant (p : Workspace) (r : Region) : Prop where
  fits : r.Fits
  apart : ∀ {n r'}, p.regions n = some r' → r.Apart r'
  offStack : ∀ a, InStack p.base p.limit a → ¬r.Covers a

def extended (p : Workspace) (n : Nat) (r : Region) (hr : p.Vacant r) : Workspace where
  layout := p.layout
  lines := p.lines
  linked := p.linked
  start := p.start
  base := p.base
  limit := p.limit
  room := p.room
  regions m := if m = n then some r else p.regions m
  fits {m r'} hr' := by
    split at hr'
    · cases hr'
      exact hr.fits
    · exact p.fits hr'
  apart {m m' r₁ r₂} hne h₁ h₂ := by
    split at h₁
    · cases h₁
      rw [if_neg (by omega)] at h₂
      exact hr.apart h₂
    · split at h₂
      · cases h₂
        exact (hr.apart h₁).symm
      · exact p.apart hne h₁ h₂
  offStack {m r'} hr' := by
    split at hr'
    · cases hr'
      exact hr.offStack
    · exact p.offStack hr'
  spared a := p.Spares a ∧ ¬r.Covers a
  heap := p.heap

section Extended

variable {hr : p.Vacant r}

theorem regions_extended_of_ne (hr : p.Vacant r) (hne : m ≠ n) : (p.extended n r hr).regions m = p.regions m :=
  if_neg hne

theorem regions_extended (hr : p.Vacant r) : (p.extended n r hr).regions n = some r :=
  if_pos rfl

theorem Outside.of_extended (hfree : p.regions n = none) (ha : (p.extended n r hr).Outside a) : p.Outside a := by
  refine ⟨ha.1, fun m r' hr' => ha.2 m r' ?_⟩
  have hne : m ≠ n := by
    rintro rfl
    cases hfree.symm.trans hr'
  rw [regions_extended_of_ne hr hne, hr']

theorem Beside.extended {P : Word → (Word → BitVec 8) → Prop} (h : p.Beside core P) (hfree : p.regions n = none) :
    (p.extended n r hr).Beside core P := by
  obtain ⟨memory, hheap, hbytes⟩ := h
  exact ⟨memory, hheap, fun a ha => hbytes a (ha.of_extended hfree)⟩

/--
A region whose number is that of no slot of the frame changes nothing that the machine holds.
-/
theorem Holds.extended (h : p.Holds f kept s core) (hn : f.slots.length ≤ n) (hfree : p.regions n = none) :
    (p.extended n r hr).Holds f kept s core := by
  refine ⟨h.le, h.sp, ?_, h.kept, fun a ha => h.memory a ha.spared.1, h.heap.extended hfree⟩
  apply h.bound.mono _ fun _ _ h => h
  intro m hm slot b hb
  refine ⟨hb.lt, hb.kind, hb.cell, fun elem helem hcell => ?_, fun scalar hscalar hother => ?_⟩
  · obtain ⟨r', items, hr', hrest⟩ := hb.array elem helem hcell
    exact ⟨r', items, (regions_extended_of_ne hr (by omega)).trans hr', hrest⟩
  · exact Beside.extended (hb.other scalar hscalar hother) hfree

end Extended

/--
A region is kept for an array that has no slot yet.
-/
def Reserves (p : Workspace) (r : Region) : Prop :=
  ∃ n, p.limit ≤ n ∧ p.regions n = some r

theorem Holds.storeRegion (h : p.Holds f kept s core) (hr : p.Reserves r) (ha : CoversWord r.Covers a) :
    p.Holds f kept s (core.storeWord a w) := by
  obtain ⟨n, hn, hr⟩ := hr
  refine ⟨h.le, by rw [Core.get_storeWord, h.sp], ?_, fun m hm hother => ?_, fun x hx => ?_, ?_⟩
  · apply h.bound.mono _ fun _ _ h => h
    intro m _ slot b hb
    have hlt := hb.lt
    exact hb.storeRegion hr ha (by omega)
  · rw [ha.loadWord_storeWord (coversWord_slotAt (Nat.lt_of_lt_of_le hm h.le) p.room) fun x hx hstack =>
      p.offStack hr x hstack hx]
    exact h.kept m hm hother
  · rw [Core.memory_storeWord (ha.le_sub (hx.regions n r hr))]
    exact h.memory x hx
  · exact h.heap.congr Core.get_storeWord fun x hx => Core.memory_storeWord (ha.le_sub (hx.2 n r hr))

theorem Holds.renumbered {hr : p.Vacant r} {kind : SlotKind}
    (h : ((p.extended p.limit r hr).withHeap heap).Holds (f.push kind len) kept s core)
    (hslots : ∀ n r, p.regions n = some r → n < f.slots.length) :
    ((p.extended f.slots.length r hr).withHeap heap).Holds (f.push kind len) kept s core := by
  let q := (p.extended p.limit r hr).withHeap heap
  let q' := (p.extended f.slots.length r hr).withHeap heap
  have hlt : f.slots.length < p.limit := h.le
  have houtside {x : Word} (hx : q'.Outside x) : q.Outside x := by
    refine ⟨hx.1, fun m r' hr' => ?_⟩
    change (if m = p.limit then some r else p.regions m) = some r' at hr'
    split at hr'
    · cases hr'
      exact hx.2 f.slots.length r (regions_extended hr)
    · exact hx.2 m r' ((regions_extended_of_ne hr (Nat.ne_of_lt (hslots m r' hr'))).trans hr')
  have hbeside {P : Word → (Word → BitVec 8) → Prop} (hP : q.Beside core P) : q'.Beside core P := by
    obtain ⟨memory, hheap, hbytes⟩ := hP
    exact ⟨memory, hheap, fun x hx => hbytes x (houtside hx)⟩
  refine ⟨h.le, h.sp, Bound.push ?_ trivial, h.kept, fun a ha => ?_, hbeside h.heap⟩
  · apply h.of_push.mono _ fun _ _ h => h
    intro n hn slot b hb
    refine ⟨hb.lt, hb.kind, hb.cell, fun elem helem hcell => ?_, fun scalar hscalar hother => ?_⟩
    · obtain ⟨r', items', hr', hrest⟩ := hb.array elem helem hcell
      have hr' : (p.extended p.limit r hr).regions n = some r' := hr'
      rw [regions_extended_of_ne hr (by omega)] at hr'
      exact ⟨r', items', (regions_extended_of_ne hr (Nat.ne_of_lt hn)).trans hr', hrest⟩
    · exact hbeside (hb.other scalar hscalar hother)
  · exact h.memory a ⟨ha.spared, ha.stack, (houtside ⟨ha.stack, ha.regions⟩).2⟩

theorem Holds.named {hr : p.Vacant r}
    (h : ((p.extended p.limit r hr).withHeap heap).Holds (f.push (.array elem) len)
      (Function.update kept f.slots.length r.address) s core)
    (hslots : ∀ n r, p.regions n = some r → n < f.slots.length) (hitems : HasArray core.loadWord r (.scalar elem) items)
    (hcell : elem.isCell = true) (hfree : f.isDeclared name = false) (hname : Declarable Plain name) :
    ∃ env, s.env.declare name (.array (.scalar elem)) (.array (.scalar elem) items) = .ok env ∧
      ((p.extended f.slots.length r hr).withHeap heap).Holds (f.pushNamed (.array elem) len name) kept { s with env }
        core := by
  apply (h.renumbered hslots).declaredWord hfree hname
  intro hword
  refine ⟨h.le, rfl, nofun, fun elem' helem _ => ?_, fun scalar hscalar hother => ?_⟩
  · cases helem
    exact ⟨r, items, regions_extended hr, hword, rfl, hitems⟩
  · rcases hscalar with hscalar | hscalar <;> cases hscalar
    rw [hcell] at hother
    cases hother

end Workspace

/-! Addresses from a base on -/

def regionBytes (lengths : List Nat) : Nat :=
  4 * (lengths.sum + lengths.length)

/--
The part of the memory that has the arrays: the address of its first byte, the lengths of the arrays in the data section
of a program, and the number of bytes up to the end of the heap.
-/
structure Arena where
  base : Word
  lengths : List Nat
  top : Nat

namespace Arena

variable {A : Arena} {a : Word} {r r' : Region} {i j n b : Nat}

def offset (A : Arena) (a : Word) : Nat :=
  (a - A.base).toNat

def start (A : Arena) (i : Nat) : Nat :=
  regionBytes (A.lengths.take i)

def heapStart (A : Arena) : Nat :=
  A.start A.lengths.length

def region (A : Arena) (b n : Nat) : Region :=
  ⟨A.base + .ofNat 32 (b + 4), n⟩

def last (A : Arena) (r : Region) : Nat :=
  A.offset r.header + 4 * (r.length + 1)

theorem start_succ (h : A.lengths[i]? = some n) : A.start (i + 1) = A.start i + 4 * (n + 1) := by
  unfold start regionBytes
  rw [List.take_add_one, h, Option.toList_some, List.sum_append, List.length_append]
  simp only [List.sum_cons, List.sum_nil, List.length_singleton]
  omega

theorem start_le (h : i ≤ j) : A.start i ≤ A.start j := by
  obtain ⟨rest, hrest⟩ := List.take_prefix_take_left h (l := A.lengths)
  unfold start regionBytes
  rw [← hrest, List.sum_append, List.length_append]
  omega

theorem start_succ_le (hij : i < j) (h : A.lengths[i]? = some n) : A.start i + 4 * (n + 1) ≤ A.start j := by
  rw [← start_succ h]
  exact start_le hij

theorem start_le_heapStart (h : A.lengths[i]? = some n) : A.start i + 4 * (n + 1) ≤ A.heapStart :=
  start_succ_le (List.getElem?_eq_some_iff.mp h).1 h

theorem offset_add (h : b < 2 ^ 32) : A.offset (A.base + .ofNat 32 b) = b := by
  unfold offset
  bv_omega

theorem offset_header (h : b + j < 2 ^ 32) : A.offset (A.base + .ofNat 32 b + .ofNat 32 j) = b + j := by
  rw [BitVec.add_assoc, ← BitVec.ofNat_add, offset_add h]

theorem header_region : (A.region b n).header = A.base + .ofNat 32 b := by
  unfold region Region.header
  rw [BitVec.ofNat_add, ← BitVec.add_assoc, BitVec.add_sub_cancel]

theorem add_offset : A.base + .ofNat 32 (A.offset a) = a := by
  unfold offset
  rw [BitVec.ofNat_toNat, BitVec.setWidth_eq, BitVec.add_comm, BitVec.sub_add_cancel]

theorem last_region (h : b < 2 ^ 32) : A.last (A.region b n) = b + 4 * (n + 1) := by
  rw [last, header_region, offset_add h]
  rfl

theorem covers_iff (h : A.last r ≤ 2 ^ 32) : r.Covers a ↔ A.offset r.header ≤ A.offset a ∧ A.offset a < A.last r := by
  unfold last at h ⊢
  unfold Region.Covers offset at *
  bv_omega

theorem apart_of_last_le (hr : A.last r ≤ 2 ^ 32) (hr' : A.last r' ≤ 2 ^ 32)
    (h : A.last r ≤ A.offset r'.header ∨ A.last r' ≤ A.offset r.header) : r.Apart r' := by
  intro a ha ha'
  rw [covers_iff hr] at ha
  rw [covers_iff hr'] at ha'
  omega

end Arena

namespace Workspace

/--
The arrays of a workspace lie in an arena: in the first regions of the data section, or in the heap below the
pointer to it. The headers of the other regions of the data section are as they were loaded. Where the length of a
slot is known, it is that of its region.
-/
structure Arranged (p : Workspace) (A : Arena) (count : Nat) (f : Frame) : Prop where
  size : A.top < 2 ^ 32
  heapStart : A.heapStart ≤ A.top
  placed : ∀ i < A.lengths.length, p.layout.data (.array i) = A.base + .ofNat 32 (A.start i)
  headers : ∀ i n, count ≤ i → A.lengths[i]? = some n → CoversWord p.spared (A.base + .ofNat 32 (A.start i)) ∧
    p.start.core.loadWord (A.base + .ofNat 32 (A.start i)) = .ofNat 32 n
  stack : ∀ a, A.offset a < A.top → ¬InStack p.base p.limit a
  heap : ∀ w, p.heap.Pointer w → A.heapStart ≤ A.offset w ∧ A.offset w ≤ A.top
  slots : ∀ n r, p.regions n = some r → n < f.slots.length
  regions : ∀ n r, p.regions n = some r → A.last r ≤ A.top ∧
    (A.last r ≤ A.start count ∨ A.heapStart ≤ A.offset r.header ∧ ∀ w, p.heap.Pointer w → A.last r ≤ A.offset w)
  lengths : ∀ n slot m r, f.slots.reverse[n]? = some slot → slot.length = some m → p.regions n = some r → r.length = m

namespace Arranged

variable {p : Workspace} {A : Arena} {count i n b : Nat} {f g : Frame} {a w : Word} {r : Region} {kind : SlotKind}
  {len : Option Nat} {name : String}

theorem vacant (h : p.Arranged A count f) (hb : b + 4 * (n + 1) ≤ A.top)
    (hregions : ∀ m r, p.regions m = some r → A.last r ≤ b ∨ b + 4 * (n + 1) ≤ A.offset r.header) :
    p.Vacant (A.region b n) := by
  have hsize := h.size
  have hoffset : A.offset (A.region b n).header = b := by rw [Arena.header_region, Arena.offset_add (by omega)]
  have hlast : A.last (A.region b n) = b + 4 * (n + 1) := Arena.last_region (by omega)
  have hin : A.last (A.region b n) ≤ 2 ^ 32 := by omega
  refine ⟨?_, fun {m r} hr => ?_, fun a ha hcovers => ?_⟩
  · have hn : 4 * (n + 1) ≤ 2 ^ 32 := by omega
    exact hn
  · have hother := (h.regions m r hr).1
    apply Arena.apart_of_last_le hin (by omega)
    rw [hlast, hoffset]
    exact (hregions m r hr).symm
  · rw [Arena.covers_iff hin] at hcovers
    exact h.stack a (by omega) ha

theorem vacant_next (h : p.Arranged A count f) (hn : A.lengths[count]? = some n) :
    p.Vacant (A.region (A.start count) n) := by
  have hle := Arena.start_le_heapStart hn
  have htop := h.heapStart
  apply h.vacant (by omega)
  intro m r hr
  rcases (h.regions m r hr).2 with hr' | ⟨hr', -⟩
  · exact .inl hr'
  · exact .inr (by omega)

theorem vacant_heap (h : p.Arranged A count f) (hw : p.heap.Pointer w) (hroom : A.offset w + 4 * (n + 1) ≤ A.top) :
    p.Vacant (A.region (A.offset w) n) := by
  have hlow := (h.heap w hw).1
  apply h.vacant hroom
  intro m r hr
  rcases (h.regions m r hr).2 with hr' | ⟨-, hr'⟩
  · have hle : A.start count ≤ A.heapStart := by
      rcases Nat.le_total count A.lengths.length with hcount | hcount
      · exact Arena.start_le hcount
      · unfold Arena.heapStart Arena.start
        rw [List.take_of_length_le hcount, List.take_length]
    omega
  · exact .inl (hr' w hw)

theorem spares_header (h : p.Arranged A count f) (hi : count ≤ i) (hn : A.lengths[i]? = some n) :
    CoversWord p.Spares (A.base + .ofNat 32 (A.start i)) := by
  intro j hj
  have hle := Arena.start_le_heapStart hn
  have hstart : A.start count ≤ A.start i := Arena.start_le hi
  have htop := h.heapStart
  have hsize := h.size
  have hplace := Arena.offset_header (A := A) (b := A.start i) (j := j) (by omega)
  refine ⟨(h.headers i n hi hn).1 j hj, h.stack _ (by omega), fun m r hr => ?_⟩
  obtain ⟨hlast, hwhere⟩ := h.regions m r hr
  have hin : A.last r ≤ 2 ^ 32 := by omega
  rw [Arena.covers_iff hin, hplace]
  omega

theorem loadWord_next {core : Core} {kept : Nat → Word} {s : State} (h : p.Arranged A count f)
    (hn : A.lengths[count]? = some n) (hholds : p.Holds g kept s core) :
    core.loadWord (A.region (A.start count) n).header = .ofNat 32 n := by
  rw [Arena.header_region, ← (h.headers count n (Nat.le_refl _) hn).2]
  exact hholds.loadWord_of_spares (h.spares_header (Nat.le_refl _) hn)

theorem regions_eq_none (h : p.Arranged A count f) (hn : f.slots.length ≤ n) : p.regions n = none := by
  rw [Option.eq_none_iff_forall_ne_some]
  intro r hr
  exact absurd (h.slots n r hr) (Nat.not_lt.mpr hn)

/--
The memory stays arranged while the pointer to the heap grows in the arena.
-/
theorem widened {heap : Heap} (h : p.Arranged A count f)
    (hheap : ∀ w, heap.Pointer w → ∃ w₀, p.heap.Pointer w₀ ∧ A.offset w₀ ≤ A.offset w ∧ A.offset w ≤ A.top) :
    (p.withHeap heap).Arranged A count f where
  size := h.size
  heapStart := h.heapStart
  placed := h.placed
  headers := h.headers
  stack := h.stack
  heap w hw := by
    obtain ⟨w₀, hw₀, hle, htop⟩ := hheap w hw
    have hlow := (h.heap w₀ hw₀).1
    exact ⟨Nat.le_trans hlow hle, htop⟩
  slots := h.slots
  regions n r hr := by
    obtain ⟨hlast, hwhere⟩ := h.regions n r hr
    refine ⟨hlast, hwhere.imp_right fun ⟨hheader, hbelow⟩ => ⟨hheader, fun w hw => ?_⟩⟩
    obtain ⟨w₀, hw₀, hle, -⟩ := hheap w hw
    exact Nat.le_trans (hbelow w₀ hw₀) hle
  lengths := h.lengths

theorem slots_extended (h : p.Arranged A count f) (hr : p.Vacant r) {m : Nat} {r' : Region}
    (hr' : (p.extended f.slots.length r hr).regions m = some r') : m < (f.pushNamed kind len name).slots.length := by
  have hlength : (f.pushNamed kind len name).slots.length = f.slots.length + 1 := rfl
  by_cases hm : m = f.slots.length
  · omega
  · rw [regions_extended_of_ne _ hm] at hr'
    have hm := h.slots m r' hr'
    omega

theorem lengths_extended (h : p.Arranged A count f) (hr : p.Vacant r) (hlen : ∀ m, len = some m → r.length = m)
    {m length : Nat}
    {slot : Slot} {r' : Region} (hslot : (f.pushNamed kind len name).slots.reverse[m]? = some slot)
    (hlength : slot.length = some length) (hr' : (p.extended f.slots.length r hr).regions m = some r') :
    r'.length = length := by
  have hslots : (f.pushNamed kind len name).slots.reverse =
      f.slots.reverse ++ [⟨kind, wordBytes, f.depth, some name, len⟩] :=
    List.reverse_cons
  rw [hslots] at hslot
  by_cases hm : m = f.slots.length
  · subst hm
    rw [regions_extended] at hr'
    cases hr'
    rw [← List.length_reverse, List.getElem?_concat_length] at hslot
    cases hslot
    exact hlen length hlength
  · rw [regions_extended_of_ne _ hm] at hr'
    have hlt : m < f.slots.reverse.length := by
      rw [List.length_reverse]
      exact h.slots m r' hr'
    rw [List.getElem?_append_left hlt] at hslot
    exact h.lengths m slot length r' hslot hlength hr'

theorem extended_next (h : p.Arranged A count f) (hn : A.lengths[count]? = some n) (hlen : ∀ m, len = some m → n = m) :
    (p.extended f.slots.length (A.region (A.start count) n) (h.vacant_next hn)).Arranged A (count + 1)
      (f.pushNamed kind len name) := by
  have hle := Arena.start_le_heapStart hn
  have htop := h.heapStart
  have hsize := h.size
  have hnext := Arena.start_succ hn
  have hlast : A.last (A.region (A.start count) n) = A.start count + 4 * (n + 1) := Arena.last_region (by omega)
  have hin : A.last (A.region (A.start count) n) ≤ 2 ^ 32 := by omega
  refine ⟨hsize, htop, h.placed, fun i n' hi hn' => ⟨fun j hj => ⟨?_, ?_⟩, ?_⟩, h.stack, h.heap,
    fun m r => h.slots_extended (h.vacant_next hn), fun m r hr => ?_,
    fun m slot length r => h.lengths_extended (h.vacant_next hn) hlen⟩
  · exact h.spares_header (by omega) hn' j hj
  · have hstart : A.start (count + 1) ≤ A.start i := Arena.start_le hi
    have hle' := Arena.start_le_heapStart hn'
    rw [Arena.covers_iff hin, Arena.offset_header (by omega)]
    omega
  · exact (h.headers i n' (by omega) hn').2
  · by_cases hm : m = f.slots.length
    · subst hm
      rw [regions_extended] at hr
      cases hr
      omega
    · rw [regions_extended_of_ne _ hm] at hr
      obtain ⟨hbelow, hwhere⟩ := h.regions m r hr
      exact ⟨hbelow, hwhere.imp_left fun hstatic => by omega⟩

theorem extended_heap (h : p.Arranged A count f) (hw : p.heap.Pointer w) (hroom : A.offset w + 4 * (n + 1) ≤ A.top)
    (hlen : ∀ m, len = some m → n = m) :
    ((p.extended f.slots.length (A.region (A.offset w) n) (h.vacant_heap hw hroom)).withHeap
      (p.heap.behind (A.region (A.offset w) n))).Arranged A count (f.pushNamed kind len name) := by
  have hsize := h.size
  have hlow := (h.heap w hw).1
  have hheader : (A.region (A.offset w) n).header = w := by rw [Arena.header_region, Arena.add_offset]
  have hbehind : A.offset (A.region (A.offset w) n).behind = A.offset w + 4 * (n + 1) := by
    have hplace := Arena.offset_header (A := A) (b := A.offset w) (j := 4 * (n + 1)) (by omega)
    rw [Region.behind, hheader]
    rwa [Arena.add_offset] at hplace
  have hlast : A.last (A.region (A.offset w) n) = A.offset w + 4 * (n + 1) := Arena.last_region (by omega)
  have hin : A.last (A.region (A.offset w) n) ≤ 2 ^ 32 := by omega
  have hpointer {w' : Word} (hw' : (p.heap.behind (A.region (A.offset w) n)).Pointer w') :
      A.offset w' = A.offset w + 4 * (n + 1) := by
    obtain ⟨_, rfl, -⟩ := hw'
    exact hbehind
  refine ⟨hsize, h.heapStart, h.placed, fun i n' hi hn' => ⟨fun j hj => ⟨?_, ?_⟩, ?_⟩, h.stack, fun w' hw' => ?_,
    fun m r => h.slots_extended (h.vacant_heap hw hroom), fun m r hr => ?_,
    fun m slot length r => h.lengths_extended (h.vacant_heap hw hroom) hlen⟩
  · exact h.spares_header hi hn' j hj
  · have hle' := Arena.start_le_heapStart hn'
    rw [Arena.covers_iff hin, Arena.offset_header (by omega), hheader]
    omega
  · exact (h.headers i n' hi hn').2
  · have hw' := hpointer hw'
    omega
  · change (p.extended f.slots.length (A.region (A.offset w) n)
      (h.vacant_heap hw hroom)).regions m = some r at hr
    by_cases hm : m = f.slots.length
    · subst hm
      rw [regions_extended] at hr
      cases hr
      refine ⟨by omega, .inr ⟨by rw [hheader]; omega, fun w' hw' => ?_⟩⟩
      have hw' := hpointer hw'
      omega
    · rw [regions_extended_of_ne _ hm] at hr
      obtain ⟨hbelow, hwhere⟩ := h.regions m r hr
      refine ⟨hbelow, hwhere.imp_right fun hheap => ⟨hheap.1, fun w' hw' => ?_⟩⟩
      have hw' := hpointer hw'
      have hle := hheap.2 w hw
      omega

end Arranged

end Workspace

end Arbor.Machine
