import Arbor.Proofs.Machine.Arena
import Arbor.Proofs.Machine.Unrolling

/-!
This module contains the code that fills the region of a new array: from the stack, with one word, or with the elements
of another array, and that word by word or in a loop.
-/

namespace Arbor.Machine

open Agreement Assembly Evaluation
open Lowering (Frame Slot SlotKind regionCode collectCode heapRegion)

namespace Workspace

variable {p : Workspace} {k k' n i : Nat} {core core' : Core} {x : Filler} {f : Frame} {kept : Nat → Word} {s : State}
  {r : Region} {items : List Value} {done done' : Nat → Prop} {rd : Register} {w : Word} {v : Value} {c : List Line}

/--
The address of a region is in `t0`, its header has its length, and some of its elements have the words of values.
-/
structure Filling (p : Workspace) (f : Frame) (kept : Nat → Word) (s : State) (r : Region) (items : List Value)
    (done : Nat → Prop) (core : Core) : Prop where
  holds : p.Holds f kept s core
  reserves : p.Reserves r
  address : core.get .t0 = r.address
  header : core.loadWord r.header = .ofNat 32 r.length
  length : items.length = r.length
  words : ∀ i v, done i → items[i]? = some v → core.loadWord (r.element i) = wordOf v

namespace Filling

theorem set (h : p.Filling f kept s r items done core) (hsp : rd ≠ .sp) (hhp : rd ≠ .hp) (ht₀ : rd ≠ .t0) :
    p.Filling f kept s r items done (core.set rd w) where
  holds := h.holds.set hsp hhp
  reserves := h.reserves
  address := (Core.get_set_of_ne ht₀.symm).trans h.address
  header := h.header
  length := h.length
  words := h.words

theorem fits (h : p.Filling f kept s r items done core) : r.Fits := by
  obtain ⟨n, -, hr⟩ := h.reserves
  exact p.fits hr

theorem store (h : p.Filling f kept s r items done core) (hv : items[i]? = some v)
    (hdone : ∀ j, done' j → done j ∨ j = i) :
    p.Filling f kept s r items done' (core.storeWord (r.element i) (wordOf v)) := by
  have hlt {j : Nat} {u : Value} (hu : items[j]? = some u) : j < r.length := by
    rw [← h.length]
    exact (List.getElem?_eq_some_iff.mp hu).1
  have hholds := h.holds.storeRegion (w := wordOf v) h.reserves (h.fits.coversWord_element (hlt hv))
  refine ⟨hholds, h.reserves, ?_, ?_, h.length, fun j u hj hu => ?_⟩
  · rw [Core.get_storeWord, h.address]
  · rw [h.fits.loadWord_header (hlt hv), h.header]
  · by_cases hne : j = i
    · subst hne
      cases hv.symm.trans hu
      exact Core.loadWord_storeWord
    · rw [h.fits.loadWord_element (hlt hv) (hlt hu) (Ne.symm hne)]
      exact h.words j u ((hdone j hj).resolve_right hne) hu

theorem hasArray {elem : SlotKind} (h : p.Filling f kept s r items done core) (hdone : ∀ i < r.length, done i)
    (hcells : ∀ v ∈ items, HasCell elem v) : HasArray core.loadWord r elem items where
  length := h.length
  header := h.header
  cells := hcells
  words i v hv := h.words i v (hdone i (h.length ▸ (List.getElem?_eq_some_iff.mp hv).1)) hv

/-! Words from code -/

theorem filled (h : p.Filling f kept s r items (fun _ => False) core)
    (hx : ∀ core, p.Holds f kept s core → ∀ i v, items[i]? = some v → x.wordAt core i = wordOf v)
    (hn : n ≤ items.length) : p.Filling f kept s r items (· < n) (core.filled r x n) := by
  induction n with
  | zero => exact ⟨h.holds, h.reserves, h.address, h.header, h.length, fun _ _ hi => absurd hi (Nat.not_lt_zero _)⟩
  | succ n ih =>
    have hitem : items[n]? = some items[n] := List.getElem?_eq_getElem hn
    have hfilled := ih (Nat.le_of_succ_le hn)
    rw [Core.filled, hx _ hfilled.holds n _ hitem]
    exact hfilled.store hitem fun j hj => Nat.lt_succ_iff_lt_or_eq.mp hj

theorem of_filled (h : p.Filling f kept s r items (fun _ => False) core)
    (hx : ∀ core, p.Holds f kept s core → ∀ i v, items[i]? = some v → x.wordAt core i = wordOf v)
    (hfilled : Filled core r x r.length core') : p.Filling f kept s r items (fun _ => True) core' := by
  have hall := h.filled hx (Nat.le_of_eq h.length.symm)
  have hsame (rd : Register) (hrd : rd ∉ fillRegisters) : core'.get rd = (core.filled r x r.length).get rd := by
    rw [hfilled.registers rd hrd, Core.get_filled]
  refine ⟨hall.holds.congr hfilled.memory (hsame .sp (by decide)) (hsame .hp (by decide)), h.reserves,
    (hsame .t0 (by decide)).trans hall.address, ?_, h.length, fun i v _ hv => ?_⟩
  · rw [Core.loadWord_congr hfilled.memory, hall.header]
  · rw [Core.loadWord_congr hfilled.memory]
    exact hall.words i v (h.length ▸ (List.getElem?_eq_some_iff.mp hv).1) hv

end Filling

/-! Words from the stack -/

inductive Stacked (kind : SlotKind) (f : Frame) (kept : Nat → Word) : List Value → Frame → (Nat → Word) → Prop where
  | nil : Stacked kind f kept [] f kept
  | snoc {vs : List Value} {g : Frame} {kept' : Nat → Word} {v : Value} {len : Option Nat} :
    Stacked kind f kept vs g kept' →
    Stacked kind f kept (vs ++ [v]) (g.push kind len) (Function.update kept' g.slots.length (wordOf v))

theorem Filling.collect {kind : SlotKind} {vs : List Value} {g : Frame} {kept' : Nat → Word}
    (hs : Stacked kind f kept vs g kept')
    (h : p.Filling g kept' s r items (vs.length ≤ ·) core) (hvs : vs <+: items)
    (hg : Reaches p.layout p.lines p.start ⟨core, k⟩) (hc : CodeAt p.lines k (collectCode vs.length) k') :
    ∃ core', Reaches p.layout p.lines p.start ⟨core', k'⟩ ∧ p.Filling f kept s r items (fun _ => True) core' := by
  induction hs generalizing k core with
  | nil =>
    cases hc
    exact ⟨core, hg, h.holds, h.reserves, h.address, h.header, h.length, fun i v _ => h.words i v (Nat.zero_le _)⟩
  | @snoc vs g kept' v len _ ih =>
    rw [List.length_append, List.length_singleton] at hc h
    rw [collectCode, List.append_assoc, codeAt_append] at hc
    obtain ⟨m, hpop, hc⟩ := hc
    obtain ⟨m', hstore, hrest⟩ := codeAt_append.mp hc
    obtain ⟨rest, hrest'⟩ := hvs
    have hitem : items[vs.length]? = some v := by
      rw [← hrest', List.append_assoc, List.getElem?_append_right (Nat.le_refl _), Nat.sub_self]
      rfl
    let core₁ := (core.set .t1 (wordOf v)).set .sp (stackTop p.base g.bytes)
    have hpopped : p.Filling g kept' s r items (vs.length + 1 ≤ ·) core₁ := by
      refine ⟨(h.holds.set (by decide) (by decide)).dropped, h.reserves, ?_, h.header, h.length, h.words⟩
      rw [Core.get_set_of_ne (by decide), Core.get_set_of_ne (by decide), h.address]
    have hword : core₁.get .t1 = wordOf v := by rw [Core.get_set_of_ne (by decide), Core.get_set (by decide)]
    have hg₁ := Reaches.straight hpop (h.holds.runLines_pop (by decide)) hg
    have hstored : p.Filling g kept' s r items (vs.length ≤ ·) _ := hpopped.store hitem fun j hj => by omega
    apply ih hstored ⟨[v] ++ rest, by rw [← List.append_assoc, hrest']⟩ _ hrest
    apply Reaches.straight hstore _ hg₁
    simp [runLine, effect, hword, hpopped.address, Region.address_add, core₁]

/-! Regions -/

theorem Vacant.reserves (hr : p.Vacant r) : (p.extended p.limit r hr).Reserves r :=
  ⟨p.limit, Nat.le_refl _, regions_extended hr⟩

theorem Holds.reserved {A : Arena} {count : Nat} {f₀ : Frame} {d : DataSection} (h : p.Holds f kept s core)
    (hfree : p.regions p.limit = none) (harranged : p.Arranged A count f₀) (hn : A.lengths[count]? = some n)
    (hd : d.arrays.length = count) (hitems : items.length = n) (hg : Reaches p.layout p.lines p.start ⟨core, k⟩)
    (hc : CodeAt p.lines k (regionCode d n) k') :
    ∃ core', Reaches p.layout p.lines p.start ⟨core', k'⟩ ∧
      (p.extended p.limit _ (harranged.vacant_next hn)).Filling f kept s (A.region (A.start count) n) items
        (fun _ => False) core' ∧
      ∀ rd, rd ≠ .t0 → core'.get rd = core.get rd := by
  have hplaced := harranged.placed count (List.getElem?_eq_some_iff.mp hn).1
  have haddress : A.base + BitVec.ofNat 32 (A.start count) + BitVec.ofInt 32 wordBytes =
      (A.region (A.start count) n).address := by
    have hword : BitVec.ofInt 32 wordBytes = BitVec.ofNat 32 4 := rfl
    rw [hword, BitVec.add_assoc, ← BitVec.ofNat_add]
    rfl
  let core₁ := (core.set .t0 (A.base + BitVec.ofNat 32 (A.start count))).set .t0 (A.region (A.start count) n).address
  have h₁ : p.Holds f kept s core₁ := (h.set (by decide) (by decide)).set (by decide) (by decide)
  refine ⟨core₁, Reaches.straight hc ?_ hg, ⟨h₁.extended h.le hfree, (harranged.vacant_next hn).reserves,
    Core.get_set (by decide), harranged.loadWord_next hn h₁, hitems, nofun⟩, fun rd hrd => ?_⟩
  · simp [regionCode, DataSection.allocate, runLine, effect, immediateOp, Core.get_set, hd, hplaced, haddress, core₁]
  · rw [Core.get_set_of_ne hrd, Core.get_set_of_ne hrd]

theorem Holds.allocated (h : p.Holds f kept s core) (hfree : p.regions p.limit = none) (hr : p.Vacant r)
    (hhp : core.get .hp = r.header) (ht₂ : core.get .t2 = .ofNat 32 r.length) (hitems : items.length = r.length)
    (hg : Reaches p.layout p.lines p.start ⟨core, k⟩) (hc : CodeAt p.lines k heapRegion k') :
    ∃ core', Reaches p.layout p.lines p.start ⟨core', k'⟩ ∧
      ((p.extended p.limit r hr).withHeap (p.heap.behind r)).Filling f kept s r items (fun _ => False) core' ∧
      core'.get .t1 = core.get .t1 ∧ core'.get .t2 = core.get .t2 := by
  let core₁ :=
    ((core.storeWord r.header (.ofNat 32 r.length)).set .t0 r.address).set .t3 (BitVec.ofNat 32 r.length <<< 2)
  have h₁ : (p.extended p.limit r hr).Holds f kept s core₁ :=
    (((h.extended h.le hfree).storeRegion hr.reserves hr.fits.coversWord_header).set (by decide) (by decide)).set
      (by decide) (by decide)
  have hhp₁ : core₁.get .hp = r.header := by
    rw [Core.get_set_of_ne (by decide), Core.get_set_of_ne (by decide), Core.get_storeWord, hhp]
  have hsame (rd : Register) (h₀ : rd ≠ .t0) (h₃ : rd ≠ .t3) (hhp : rd ≠ .hp) :
      (core₁.set .hp r.behind).get rd = core.get rd := by
    rw [Core.get_set_of_ne hhp, Core.get_set_of_ne h₃, Core.get_set_of_ne h₀, Core.get_storeWord]
  refine ⟨core₁.set .hp r.behind, Reaches.straight hc ?_ hg, ⟨h₁.pointed hhp₁, hr.reserves, ?_, ?_, hitems, nofun⟩,
    hsame _ (by decide) (by decide) (by decide), hsame _ (by decide) (by decide) (by decide)⟩
  · have haddress : r.header + BitVec.ofInt 32 wordBytes = r.address := by
      have hword : BitVec.ofInt 32 wordBytes = 4 := rfl
      rw [hword, Region.header]
      exact BitVec.sub_add_cancel r.address 4
    have hbehind : r.address + BitVec.ofNat 32 r.length <<< 2 = r.behind := by
      rw [r.address_add_shift, Region.element, Region.behind, Region.header]
      bv_omega
    simp [heapRegion, runLine, effect, immediateOp, registerOp, Core.get_set, Core.get_set_of_ne, Core.get_storeWord,
      hhp, ht₂, haddress, hbehind, core₁]
  · rw [Core.get_set_of_ne (by decide), Core.get_set_of_ne (by decide), Core.get_set (by decide)]
  · exact Core.loadWord_storeWord

end Workspace

end Arbor.Machine
