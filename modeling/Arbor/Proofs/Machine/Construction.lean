import Arbor.Proofs.Machine.Filling
import Arbor.Proofs.Machine.TextExpressions

/-!
This module contains the code that makes a new array: of the elements of a list, of zero values, or of the elements of
another array. The array has a region of its own, in the data section where its length is known and in the heap where it
is not, and it is the one that the evaluator builds.
-/

namespace Arbor

open Lowering (Frame Slot SlotKind ExprCode ItemsCode singleChar? intLiteral? intWord collectCode regionCode heapRegion
  loadZero upToCode unrolledFill fillLoop unrolledCopy copyLoop)

/-! Elements -/

namespace Lowering

variable {f f' : Frame} {n n' : Nat} {e : Expr} {kind : SlotKind} {len : Option Nat} {c : List Assembly.Line}
  {items : List Expr} {elem? : Option Scalar} {elem : Scalar}

theorem kind_of_singleChar? {char : Char} : ∀ {e : Expr} {c : List Assembly.Line}, singleChar? e = some char →
    ExprCode f n none e kind len c n' → kind = .string
  | .literal _ (.string _), _, _, h => by
    cases h with
    | literal h =>
      cases h
      rfl
  | .grouping _ e, _, hchar, h => by
    rw [singleChar?] at hchar
    cases h with
    | grouping h => exact kind_of_singleChar? hchar h

theorem ItemsCode.declared (h : ItemsCode f n elem? items elem c f' n') (hcell : elem.isCell = true) :
    ItemsCode f n (some elem) items elem c f' n' := by
  cases h with
  | nil => exact .nil
  | known he hrest => exact .known he hrest
  | @first _ _ _ _ _ _ e _ _ c₁ _ he hrest =>
    have hchar : singleChar? e = none := by
      cases hchar : singleChar? e with
      | none => rfl
      | some =>
        cases kind_of_singleChar? hchar he
        cases hcell
    have hsame := ExprCode.converted (fun _ => hchar) he (.same _)
    rw [List.append_nil] at hsame
    exact .known hsame hrest

end Lowering

namespace Machine

open Assembly Agreement Evaluation

variable {cx : Context} {p : Workspace} {A : Arena} {f f' g g' : Frame} {kept : Nat → Word} {s : State} {span : Span}
  {elem : Scalar} {e : Expr} {items : List Expr} {name source : String} {height n n' k k' count : Nat}
  {len : Option Nat} {c : List Line} {core : Core} {heap heap' : Heap}

namespace Workspace

/--
An expression that may stand for an element of an array: its code pushes the word of its value, or it is a string
literal with only one character among chars.
-/
inductive Supplies (p : Workspace) (cx : Context) (f : Frame) (elem : Scalar) (height : Nat) (e : Expr) :
    Heap → Prop where
  | pushes {heap : Heap} : p.Pushes cx f e (.scalar elem) height heap → Supplies p cx f elem height e heap
  | narrowed {char : Char} :
    elem = .char → singleChar? e = some char → 0 < height → Supplies p cx f elem height e p.heap

/--
The elements of a list are supplied one after the other, each with what is known of the heap after those before it.
-/
inductive SuppliesAll (cx : Context) (f : Frame) (elem : Scalar) (height : Nat) :
    Workspace → List Expr → Heap → Prop where
  | nil {p : Workspace} : SuppliesAll cx f elem height p [] p.heap
  | cons {p : Workspace} {e : Expr} {rest : List Expr} {heap heap' : Heap} :
    p.Supplies cx f elem height e heap → SuppliesAll cx f elem height (p.withHeap heap) rest heap' →
    SuppliesAll cx f elem height p (e :: rest) heap'

theorem suppliesAll_of_forall (h : ∀ e ∈ items, p.Supplies cx f elem height e p.heap) :
    SuppliesAll cx f elem height p items p.heap := by
  induction items with
  | nil => exact .nil
  | cons e rest ih =>
    rw [List.forall_mem_cons] at h
    exact .cons h.1 (ih h.2)

/--
Elements that take at most a number of bytes each from the heap.
-/
theorem suppliesAll_of_takes {m : Nat} (h : ∀ e ∈ items, Takes cx f e (.scalar elem) height m)
    (hclear : p.Clear (m * items.length)) :
    ∃ heap, heap.Within (p.heap.grown (m * items.length)) ∧ SuppliesAll cx f elem height p items heap := by
  induction items generalizing p with
  | nil => exact ⟨p.heap, hclear.within_grown, .nil⟩
  | cons e rest ih =>
    rw [List.forall_mem_cons] at h
    have hsize : m * (e :: rest).length = m + m * rest.length := by
      rw [List.length_cons, Nat.mul_succ, Nat.add_comm]
    rw [hsize] at hclear ⊢
    obtain ⟨heap, hheap, hrest⟩ := ih (p := p.withHeap (p.heap.grown m)) h.2 hclear.grown
    exact ⟨heap, hheap.trans Heap.grown_grown, .cons (.pushes (h.1.first hclear)) hrest⟩

end Workspace

theorem elementOf_cell {v : Value} (h : HasCell (.scalar elem) v) : elementOf v (.scalar elem) = .ok v := by
  cases h <;> rfl

theorem Workspace.Supplies.run (he : p.Supplies cx f elem height e heap) (hg : f.Above g)
    (hcode : ExprCode g n (some (.scalar elem)) e (.scalar elem) len c n') (hroom : g.slots.length + height ≤ p.limit)
    (hc : CodeAt p.lines k c k') :
    Triple (p.tracker.At k (p.Holds g kept)) (element cx elem 1 e)
      ((p.withHeap heap).tracker.Pushed g kept (.scalar elem) len k') p.Halts := by
  rw [element_eq, convertedElement]
  cases he with
  | pushes he =>
    apply Triple.bind (Tracker.follows_literal (he.asked hg hcode hroom hc))
    intro v
    apply Triple.assuming fun _ hs => hs.value
    intro hv
    rw [elementOf_cell hv]
    exact Triple.pure fun _ hs => hs
  | @narrowed char helem hchar hpos =>
    subst helem
    obtain ⟨t, ht, hlist⟩ := evaluate_of_singleChar? cx hchar
    have hnarrowed : elementOf (.text t) (.scalar .char) = .ok (.char char) := by
      simp only [elementOf, Value.coerce, hlist]
    cases hcode with
    | converted hnone => cases hchar.symm.trans (hnone rfl)
    | narrowed hchar' =>
      cases hchar.symm.trans hchar'
      rw [ht]
      change Triple _ (liftAt e.span (elementOf (.text t) (.scalar .char))) _ _
      rw [hnarrowed]
      rintro s ⟨core, hg, h⟩
      exact Tracker.computed (p := p.tracker) (c := [.li .t0 (charCode char)]) hg h (show _ < p.limit by omega) hc
        (.char char) rfl

namespace Workspace

theorem Stacked.cons {kind : SlotKind} {v : Value} {vs : List Value} {kept' : Nat → Word}
    (h : Stacked kind (f.push kind len) (Function.update kept f.slots.length (wordOf v)) vs g kept') :
    Stacked kind f kept (v :: vs) g kept' := by
  induction h with
  | nil => exact .snoc .nil
  | snoc _ ih => exact .snoc ih

theorem follows_elements (hitems : SuppliesAll cx f elem height p items heap) (hg : f.Above g)
    (hcode : ItemsCode g n (some elem) items elem c g' n') (hroom : g.slots.length + items.length + height ≤ p.limit)
    (hc : CodeAt p.lines k c k') :
    Triple (p.tracker.At k (p.Holds g kept)) (elements cx elem 1 items)
      (fun vs s => vs.length = items.length ∧ (∀ v ∈ vs, HasCell (.scalar elem) v) ∧
        ∃ kept', Stacked (.scalar elem) g kept vs g' kept' ∧
          p.tracker.At k' ((p.withHeap heap).Holds g' kept') s) p.Halts := by
  induction hitems generalizing g kept n k c with
  | nil =>
    cases hcode
    cases hc
    exact Triple.pure fun _ hs => ⟨rfl, by simp, kept, .nil, hs⟩
  | @cons p e rest heap heap' he _ ih =>
    cases hcode with
    | known hcode hrest =>
      rw [List.length_cons] at hroom
      obtain ⟨m, hc₁, hc₂⟩ := codeAt_append.mp hc
      rw [elements]
      apply Triple.bind (he.run hg hcode (by omega) hc₁)
      intro v
      apply Triple.assuming fun _ hs => hs.value
      intro hv
      have hroom' : g.slots.length + 1 + rest.length + height ≤ p.limit := by omega
      apply Triple.bind ((ih hg.push hrest hroom' hc₂).pre fun _ hs => hs.holds)
      intro vs
      apply Triple.pure
      rintro s ⟨hlength, hcells, kept', hstacked, hs⟩
      exact ⟨congrArg (· + 1) hlength, List.forall_mem_cons.mpr ⟨hv, hcells⟩, kept', hstacked.cons, hs⟩

/-! Arrays that are made -/

/--
The machine has made an array of the elements of a value, in a region of its own, and pushed its address.
-/
structure Makes (p : Workspace) (A : Arena) (count : Nat) (f : Frame) (kept : Nat → Word) (elem : Scalar)
    (len : Option Nat) (r : Region) (hr : p.Vacant r) (heap : Heap) (items : List Value) (s : State) (core : Core) :
    Prop where
  after : p.heap.After r heap
  holds : ((p.extended p.limit r hr).withHeap heap).Holds (f.push (.array elem) len)
    (Function.update kept f.slots.length r.address) s core
  items : HasArray core.loadWord r (.scalar elem) items
  arranged : ∀ name, ((p.extended f.slots.length r hr).withHeap heap).Arranged A count
    (f.pushNamed (.array elem) len name)

def Made (p : Workspace) (A : Arena) (count : Nat) (f : Frame) (kept : Nat → Word) (elem : Scalar) (len : Option Nat)
    (k : Nat) (v : Value) (s : State) : Prop :=
  ∃ r hr heap items core, v = .array (.scalar elem) items ∧ Reaches p.layout p.lines p.start ⟨core, k⟩ ∧
    p.Makes A count f kept elem len r hr heap items s core

variable {r : Region} {vs : List Value}

theorem Filling.made (hr : p.Vacant r)
    (h : ((p.extended p.limit r hr).withHeap heap).Filling f kept s r vs (fun _ => True) core)
    (hcells : ∀ v ∈ vs, HasCell (.scalar elem) v) (hafter : p.heap.After r heap)
    (harranged : ∀ name, ((p.extended f.slots.length r hr).withHeap heap).Arranged A count
      (f.pushNamed (.array elem) len name))
    (hroom : f.slots.length < p.limit) (hg : Reaches p.layout p.lines p.start ⟨core, k⟩)
    (hc : CodeAt p.lines k (push .t0) k') :
    p.Made A count f kept elem len k' (.array (.scalar elem) vs) s := by
  have hsp : core.get .sp - 4 = slotAt p.base f.slots.length := h.holds.sp_sub
  have hg' := hg.push (by decide) hc
  rw [hsp, h.address] at hg'
  have hitems : HasArray core.loadWord r (.scalar elem) vs := h.hasArray (fun _ _ => trivial) hcells
  have hstored := HasArray.storeWord (w := r.address) hitems hr.fits (coversWord_slotAt hroom p.room) hr.offStack
  exact ⟨r, hr, heap, vs, _, rfl, hg', hafter, h.holds.placed hroom, hstored, harranged⟩

theorem follows_values {d : DataSection} (hitems : SuppliesAll cx f elem height p items heap)
    (hcode : ItemsCode f n (some elem) items elem c f' n') (harranged : (p.withHeap heap).Arranged A d.arrays.length f)
    (hn : A.lengths[d.arrays.length]? = some items.length) (hroom : f.slots.length + items.length + height < p.limit)
    (hc : CodeAt p.lines k (c ++ regionCode d items.length ++ collectCode items.length ++ push .t0) k') :
    Triple (p.tracker.At k (p.Holds f kept)) (initialArray cx span (.values items) elem 1)
      ((p.withHeap heap).Made A (d.arrays.length + 1) f kept elem (some items.length) k') p.Halts := by
  let q := p.withHeap heap
  obtain ⟨m₃, hc, hpush⟩ := codeAt_append.mp hc
  obtain ⟨m₂, hc, hcollect⟩ := codeAt_append.mp hc
  obtain ⟨m₁, hitems', hregion⟩ := codeAt_append.mp hc
  rw [initialArray]
  apply Triple.bind (follows_elements hitems .refl hcode (by omega) hitems')
  intro vs
  apply Triple.pure
  rintro s ⟨hlength, hcells, kept', hstacked, core, hg, h⟩
  have h : q.Holds f' kept' s core := h
  have hfree : q.regions q.limit = none := harranged.regions_eq_none (show _ ≤ p.limit by omega)
  obtain ⟨core₁, hg₁, h₁, -⟩ := h.reserved hfree harranged hn rfl hlength hg hregion
  have hnone : (q.extended q.limit _ (harranged.vacant_next hn)).Filling f' kept' s _ vs (vs.length ≤ ·) core₁ :=
    ⟨h₁.holds, h₁.reserves, h₁.address, h₁.header, h₁.length, fun i v hi hv =>
      absurd (List.getElem?_eq_some_iff.mp hv).1 (Nat.not_lt.mpr hi)⟩
  rw [← hlength] at hcollect
  obtain ⟨core₂, hg₂, h₂⟩ := hnone.collect hstacked (List.prefix_refl vs) hg₁ hcollect
  exact Filling.made (p := q) (harranged.vacant_next hn) h₂ hcells .same
    (fun name => harranged.extended_next hn (by simp)) (show _ < p.limit by omega) hg₂ hpush

/-! Zero values -/

theorem hasCell_zero (hcell : elem.isCell = true) :
    HasCell (.scalar elem) (Value.zero (.scalar elem)) ∧ wordOf (Value.zero (.scalar elem)) = 0 := by
  cases elem with
  | int => exact ⟨.int 0, rfl⟩
  | bool => exact ⟨.bool false, rfl⟩
  | char => exact ⟨.char _, rfl⟩
  | float | string => cases hcell

theorem runLines_loadZero {L : Layout} {rd : Register} (hcell : elem.isCell = true) :
    runLines L core [loadZero rd elem] = some (core.set rd 0) := by
  cases elem with
  | int | bool | char => rfl
  | float | string => cases hcell

theorem zeroArray_eq {limit : Nat} {m : Int32} (hpos : ¬m < 0) (hmax : m.toInt.toNat ≤ limit) :
    zeroArray limit (.scalar elem) (.int m) =
      .ok (.array (.scalar elem) (List.replicate m.toInt.toNat (Value.zero (.scalar elem)))) := by
  simp only [zeroArray, if_neg hpos, if_neg (Nat.not_lt.mpr hmax)]

theorem word_of_intWord {size : Int64} {word : Int} (hword : intWord size = .ok word) :
    size.toInt = word ∧ -2 ^ 31 ≤ word ∧ word < 2 ^ 31 := by
  unfold intWord at hword
  split at hword
  · next hrange =>
    cases hword
    exact ⟨rfl, hrange⟩
  · cases hword

theorem size_of_intWord {size : Int64} {word : Int} (hpos : ¬size < 0) (hword : intWord size = .ok word) :
    (Int32.ofInt size.toInt).toInt.toNat = word.toNat ∧ ¬Int32.ofInt size.toInt < 0 := by
  obtain ⟨rfl, hlow, hhigh⟩ := word_of_intWord hword
  have htoInt : (Int32.ofInt size.toInt).toInt = size.toInt := Int32.toInt_ofInt_of_le hlow hhigh
  refine ⟨by rw [htoInt], ?_⟩
  rw [Int32.lt_iff_toInt_lt, htoInt]
  rwa [Int64.lt_iff_toInt_lt] at hpos

theorem wordAt_zero {q : Workspace} (hcell : elem.isCell = true) (core : Core) (_ : q.Holds f kept s core) (i : Nat)
    (v : Value) (hv : (List.replicate n (Value.zero (.scalar elem)))[i]? = some v) :
    (Filler.word 0).wordAt core i = wordOf v := by
  rw [List.eq_of_mem_replicate (List.mem_of_getElem? hv), (hasCell_zero hcell).2]
  rfl

/--
A literal length: the next region of the data section is filled with zero values.
-/
theorem follows_sized {d : DataSection} {limit label : Nat} {length : Expr} {size : Int64} {word : Int}
    (hliteral : intLiteral? length = some size) (hpos : ¬size < 0) (hword : intWord size = .ok word)
    (hmax : word.toNat ≤ cx.maxArrayLength) (hcell : elem.isCell = true) (harranged : p.Arranged A d.arrays.length f)
    (hn : A.lengths[d.arrays.length]? = some word.toNat) (hroom : f.slots.length < p.limit)
    (hc : CodeAt p.lines k (regionCode d word.toNat ++ [loadZero .t1 elem]
      ++ upToCode limit word.toNat label unrolledFill fillLoop ++ push .t0) k') :
    Triple (p.tracker.At k (p.Holds f kept)) (initialArray cx span (.sized length) elem 1)
      (p.Made A (d.arrays.length + 1) f kept elem (some word.toNat) k') p.Halts := by
  obtain ⟨m₃, hc, hpush⟩ := codeAt_append.mp hc
  obtain ⟨m₂, hc, hfill⟩ := codeAt_append.mp hc
  obtain ⟨m₁, hregion, hzero⟩ := codeAt_append.mp hc
  rw [initialArray, evaluate_of_intLiteral? hword hliteral]
  obtain ⟨hsize, hrange⟩ := size_of_intWord hpos hword
  change Triple _ (liftAt length.span (zeroArray cx.maxArrayLength (.scalar elem) (.int (Int32.ofInt size.toInt)))) _ _
  rw [zeroArray_eq hrange (hsize ▸ hmax), hsize]
  rintro s ⟨core, hg, h⟩
  have hr := harranged.vacant_next hn
  have hfree : p.regions p.limit = none := harranged.regions_eq_none (Nat.le_of_lt hroom)
  have hlength : (List.replicate word.toNat (Value.zero (.scalar elem))).length = word.toNat := List.length_replicate
  obtain ⟨core₁, hg₁, h₁, -⟩ := h.reserved hfree harranged hn rfl hlength hg hregion
  have h₂ : (p.extended p.limit _ hr).Filling f kept s _ _ (fun _ => False) (core₁.set .t1 0) :=
    h₁.set (by decide) (by decide) (by decide)
  have hg₂ := Reaches.straight hzero (runLines_loadZero hcell) hg₁
  obtain ⟨core₃, hg₃, hfilled⟩ := filled_upTo (x := .word 0) p.linked.unique hr.fits.length_lt h₂.address
    (Core.get_set (by decide)) hg₂ hfill
  exact Filling.made hr (h₂.of_filled (wordAt_zero hcell) hfilled)
    (fun v hv => List.eq_of_mem_replicate hv ▸ (hasCell_zero hcell).1) .same
    (fun name => harranged.extended_next hn (by simp)) hroom hg₃ hpush

/-! Arrays in the heap -/

def HasHeap (p : Workspace) (A : Arena) (n : Nat) : Prop :=
  ∀ w, p.heap.Pointer w → A.offset w + 4 * (n + 1) ≤ A.top

theorem Holds.allocatedNext (h : p.Holds f kept s core) (harranged : p.Arranged A count g)
    (hg : g.slots.length ≤ p.limit) (hheap : p.HasHeap A n) (ht₂ : core.get .t2 = .ofNat 32 n) (hvs : vs.length = n)
    (hreaches : Reaches p.layout p.lines p.start ⟨core, k⟩) (hc : CodeAt p.lines k heapRegion k') :
    ∃ w core', ∃ hw : p.heap.Pointer w, Reaches p.layout p.lines p.start ⟨core', k'⟩ ∧
      ((p.extended p.limit _ (harranged.vacant_heap hw (hheap w hw))).withHeap
        (p.heap.behind (A.region (A.offset w) n))).Filling f kept s (A.region (A.offset w) n) vs
        (fun _ => False) core' ∧
      core'.get .t1 = core.get .t1 ∧ core'.get .t2 = .ofNat 32 n := by
  obtain ⟨memory, hw, -⟩ := h.heap
  have hw : p.heap.Pointer (core.get .hp) := ⟨memory, hw⟩
  have hheader : (A.region (A.offset (core.get .hp)) n).header = core.get .hp := by
    rw [Arena.header_region, Arena.add_offset]
  obtain ⟨core', hg', h', ht₁, ht₂'⟩ := h.allocated (harranged.regions_eq_none hg)
    (harranged.vacant_heap hw (hheap _ hw)) hheader.symm ht₂ hvs hreaches hc
  exact ⟨_, core', hw, hg', h', ht₁, ht₂'.trans ht₂⟩

theorem after_behind {w : Word} (hw : p.heap.Pointer w) :
    p.heap.After (A.region (A.offset w) n) (p.heap.behind (A.region (A.offset w) n)) := by
  apply Heap.After.behind
  rwa [Arena.header_region, Arena.add_offset]

theorem wordOf_int_of_nonneg {m : Int32} (hpos : ¬m < 0) : wordOf (.int m) = .ofNat 32 m.toInt.toNat := by
  have hm : 0 ≤ m.toInt := by
    rw [Int32.lt_iff_toInt_lt] at hpos
    exact Int.not_lt.mp hpos
  rw [← BitVec.ofInt_natCast, Int.toNat_of_nonneg hm, ← Int32.toInt_toBitVec, BitVec.ofInt_toInt]
  rfl

/--
A computed length: a region of the heap is filled with zero values.
-/
theorem follows_computed {length : Expr} {l₁ l₂ : Label} (hlength : p.Pushes cx f length .int height heap)
    (hcode : ExprCode f n (some .int) length .int len c n') (hcell : elem.isCell = true)
    (harranged : (p.withHeap heap).Arranged A count f) (hroom : f.slots.length + height < p.limit)
    (hsize : ∀ m s', evaluate cx length s = .ok (.int m) s' →
      ¬m < 0 ∧ m.toInt.toNat ≤ cx.maxArrayLength ∧ (p.withHeap heap).HasHeap A m.toInt.toNat)
    (hs : p.tracker.At k (p.Holds f kept) s)
    (hc : CodeAt p.lines k (c ++ pop .t2 ++ heapRegion ++ [loadZero .t1 elem] ++ fillLoop l₁ l₂ ++ push .t0) k') :
    Triple (· = s) (initialArray cx span (.sized length) elem 1)
      ((p.withHeap heap).Made A count f kept elem none k') p.Halts := by
  let q := p.withHeap heap
  obtain ⟨m₅, hc, hpush⟩ := codeAt_append.mp hc
  obtain ⟨m₄, hc, hfill⟩ := codeAt_append.mp hc
  obtain ⟨m₃, hc, hzero⟩ := codeAt_append.mp hc
  obtain ⟨m₂, hc, hregion⟩ := codeAt_append.mp hc
  obtain ⟨m₁, hc, hpop⟩ := codeAt_append.mp hc
  have hvalue := (hlength.asked .refl hcode (by omega) hc).recording hs
  rw [initialArray]
  apply Triple.bind (hvalue.literal (fun v s hv _ => hv) fun fn s err hfn => nomatch hfn.2.value.isLiteral)
  rintro v s₁ ⟨hvalue, hpushed⟩
  obtain ⟨m, rfl⟩ := (hpushed.value.hasWord nofun).exists_int
  obtain ⟨hpos, hmax, hheap⟩ := hsize m s₁ hvalue
  obtain ⟨core, hg, h⟩ := hpushed.holds
  obtain ⟨core₁, hg₁, h₁, ht₂, -⟩ := Holds.popped (p := q) hg h hpop (by decide) (by decide) (by decide)
  rw [wordOf_int_of_nonneg hpos] at ht₂
  have hlength : (List.replicate m.toInt.toNat (Value.zero (.scalar elem))).length = m.toInt.toNat :=
    List.length_replicate
  obtain ⟨w, core₂, hw, hg₂, h₂, -, ht₂⟩ :=
    h₁.allocatedNext harranged (show _ ≤ p.limit by omega) hheap ht₂ hlength hg₁ hregion
  have h₃ : Workspace.Filling _ f kept s₁ _ _ (fun _ => False) (core₂.set .t1 0) :=
    h₂.set (by decide) (by decide) (by decide)
  have hg₃ := Reaches.straight hzero (runLines_loadZero hcell) hg₂
  obtain ⟨core₄, hg₄, hfilled⟩ := filled_loop (x := .word 0) p.linked.unique h₃.fits.length_lt h₃.address
    (Core.get_set (by decide)) (.begin _ _ _) ((Core.get_set_of_ne (by decide)).trans ht₂) hg₃ hfill
  have hresult : zeroArray cx.maxArrayLength (Kind.arrayOf (.scalar elem) (1 - 1)) (.int m) = _ :=
    zeroArray_eq hpos hmax
  rw [hresult]
  exact Filling.made (p := q) (harranged.vacant_heap hw (hheap w hw)) (h₃.of_filled (wordAt_zero hcell) hfilled)
    (fun v hv => List.eq_of_mem_replicate hv ▸ (hasCell_zero hcell).1) (after_behind hw)
    (fun name => harranged.extended_heap hw (hheap w hw) nofun) (show _ < p.limit by omega) hg₄ hpush

/-! Copies -/

theorem Holds.hasArray {offset : Int} {slot : Slot} {m : Nat} (h : p.Holds f kept s core) (hname : Plain source)
    (hslot : f.resolve? source = some (offset, slot)) (hkind : slot.kind = .array elem) (hcell : elem.isCell = true)
    (hplace : f.place? source = some (m, slot)) (hr : p.regions m = some r)
    (hget : s.env.get source = .ok ⟨.array (.scalar elem), .array (.scalar elem) vs⟩) :
    HasArray core.loadWord r (.scalar elem) vs := by
  obtain ⟨m', r', vs', hplace', hr', hget', hitems, -⟩ := h.array hname hslot hkind hcell
  cases hplace.symm.trans hplace'
  cases hr.symm.trans hr'
  cases hget.symm.trans hget'
  exact hitems

theorem copyArray_eq {kind : Kind} (hget : s.env.get source = .ok ⟨kind, .array (.scalar elem) vs⟩) :
    copyArray span (.array (.scalar elem)) source s = .ok (.array (.scalar elem) vs) s := by
  have hread : readVariable span source s = .ok (.array (.scalar elem) vs) s := readVariable_eq hget
  change EStateM.bind (readVariable span source) _ s = _
  simp [EStateM.bind, hread]
  rfl

theorem follows_copied {d : DataSection} {limit label m : Nat} {offset : Int} {slot : Slot} (hname : Plain source)
    (hslot : f.resolve? source = some (offset, slot)) (hkind : slot.kind = .array elem) (hcell : elem.isCell = true)
    (hlength : slot.length = some m) (harranged : p.Arranged A d.arrays.length f)
    (hn : A.lengths[d.arrays.length]? = some m) (hroom : f.slots.length < p.limit)
    (hc : CodeAt p.lines k ([.lw .t1 offset .sp] ++ regionCode d m ++ upToCode limit m label unrolledCopy copyLoop
      ++ push .t0) k') :
    Triple (p.tracker.At k (p.Holds f kept)) (initialArray cx span (.copyOf source) elem 1)
      (p.Made A (d.arrays.length + 1) f kept elem (some m) k') p.Halts := by
  obtain ⟨m₃, hc, hpush⟩ := codeAt_append.mp hc
  obtain ⟨m₂, hc, hcopy⟩ := codeAt_append.mp hc
  obtain ⟨m₁, hload, hregion⟩ := codeAt_append.mp hc
  rintro s ⟨core, hg, h⟩
  obtain ⟨i, source', vs, hplace, hr', hget, hitems, haddress⟩ := h.array hname hslot hkind hcell
  have hm : source'.length = m := harranged.lengths i slot m source' (Frame.slot_of_place? hplace).1 hlength hr'
  have hcopied : initialArray cx span (.copyOf source) elem 1 s = .ok (.array (.scalar elem) vs) s := copyArray_eq hget
  rw [hcopied]
  have hr := harranged.vacant_next hn
  have hfree : p.regions p.limit = none := harranged.regions_eq_none (Nat.le_of_lt hroom)
  have h₁ : p.Holds f kept s (core.set .t1 source'.address) := h.set (by decide) (by decide)
  have hg₁ : Reaches p.layout p.lines p.start ⟨core.set .t1 source'.address, m₁⟩ := by
    apply Reaches.straight hload _ hg
    simp [runLine, effect, haddress]
  obtain ⟨core₂, hg₂, h₂, hsame⟩ := h₁.reserved hfree harranged hn rfl (hitems.length.trans hm) hg₁ hregion
  have ht₁ : core₂.get .t1 = source'.address := (hsame .t1 (by decide)).trans (Core.get_set (by decide))
  obtain ⟨core₃, hg₃, hfilled⟩ := filled_upTo (x := .elements source') p.linked.unique hr.fits.length_lt h₂.address ht₁
    hg₂ hcopy
  have hsource := (regions_extended_of_ne hr (Nat.ne_of_lt ((Frame.place?_lt hplace).trans_le h.le))).trans hr'
  have hwords : ∀ core, (p.extended p.limit _ hr).Holds f kept s core → ∀ i v, vs[i]? = some v →
      (Filler.elements source').wordAt core i = wordOf v :=
    fun core h i v hv => (h.hasArray hname hslot hkind hcell hplace hsource hget).words i v hv
  exact Filling.made hr (h₂.of_filled hwords hfilled) hitems.cells .same
    (fun name => harranged.extended_next hn (by simp)) hroom hg₃ hpush

theorem follows_copiedHeap {offset : Int} {slot : Slot} {l₁ l₂ : Label} (hname : Plain source)
    (hslot : f.resolve? source = some (offset, slot)) (hkind : slot.kind = .array elem) (hcell : elem.isCell = true)
    (harranged : p.Arranged A count f) (hroom : f.slots.length < p.limit)
    (hheap : ∀ kind vs, s.env.get source = .ok ⟨kind, .array (.scalar elem) vs⟩ → p.HasHeap A vs.length)
    (hs : p.tracker.At k (p.Holds f kept) s)
    (hc : CodeAt p.lines k ([.lw .t1 offset .sp] ++ .lw .t2 (-wordBytes) .t1 :: heapRegion ++ copyLoop l₁ l₂
      ++ push .t0) k') :
    Triple (· = s) (initialArray cx span (.copyOf source) elem 1) (p.Made A count f kept elem none k') p.Halts := by
  obtain ⟨m₃, hc, hpush⟩ := codeAt_append.mp hc
  obtain ⟨m₂, hc, hcopy⟩ := codeAt_append.mp hc
  rw [List.singleton_append, codeAt_instruction, codeAt_instruction] at hc
  obtain ⟨hload₁, hload₂, hregion⟩ := hc
  intro t ht
  subst t
  obtain ⟨core, hg, h⟩ := hs
  obtain ⟨i, source', vs, hplace, hr', hget, hitems, haddress⟩ := h.array hname hslot hkind hcell
  have hcopied : initialArray cx span (.copyOf source) elem 1 s = .ok (.array (.scalar elem) vs) s := copyArray_eq hget
  rw [hcopied]
  have hheap := hheap _ _ hget
  let core₁ := (core.set .t1 source'.address).set .t2 (.ofNat 32 source'.length)
  have h₁ : p.Holds f kept s core₁ := (h.set (by decide) (by decide)).set (by decide) (by decide)
  have hg₁ : Reaches p.layout p.lines p.start ⟨core₁, k + 1 + 1⟩ := by
    apply (hg.step (step_instruction hload₁ _)).step (step_instruction hload₂ _)
    · exact core.set .t1 source'.address
    · rw [effect, haddress]
    · have hheader : (core.set .t1 source'.address).loadWord source'.header = .ofNat 32 source'.length := hitems.header
      simp [effect, Core.get_set, Region.header_eq, hheader, core₁]
  have ht₂ : core₁.get .t2 = .ofNat 32 vs.length := by
    rw [Core.get_set (by decide), hitems.length]
  obtain ⟨w, core₂, hw, hg₂, h₂, ht₁, ht₂⟩ := h₁.allocatedNext harranged h.le hheap ht₂ rfl hg₁ hregion
  have hr := harranged.vacant_heap hw (hheap w hw)
  have ht₁ : core₂.get .t1 = source'.address := by
    rw [ht₁, Core.get_set_of_ne (by decide), Core.get_set (by decide)]
  obtain ⟨core₃, hg₃, hfilled⟩ := filled_loop (x := .elements source') p.linked.unique hr.fits.length_lt h₂.address ht₁
    (.begin _ _ _) ht₂ hg₂ hcopy
  have hsource := (regions_extended_of_ne hr (Nat.ne_of_lt ((Frame.place?_lt hplace).trans_le h.le))).trans hr'
  let q := (p.extended p.limit _ hr).withHeap (p.heap.behind (A.region (A.offset w) vs.length))
  have hwords : ∀ core, q.Holds f kept s core → ∀ i v, vs[i]? = some v →
      (Filler.elements source').wordAt core i = wordOf v :=
    fun core h i v hv => (h.hasArray hname hslot hkind hcell hplace hsource hget).words i v hv
  exact Filling.made hr (h₂.of_filled hwords hfilled) hitems.cells (after_behind hw)
    (fun name => harranged.extended_heap hw (hheap w hw) nofun) hroom hg₃ hpush

end Workspace

end Machine

end Arbor
