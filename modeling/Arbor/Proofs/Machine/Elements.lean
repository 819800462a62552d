import Arbor.Proofs.Machine.Tracking
import Arbor.Proofs.Machine.Workspace

/-!
This module contains the code of accesses to the elements of arrays: the check of an index, and the code that reads and
that assigns an element.
-/

namespace Arbor

namespace Evaluation

/-! Elements -/

section Elements

variable {s : State} {span : Span} {name : String} {elem : Kind} {items : List Value} {i : Int} {n : Nat}
  {old u v : Value} {env : Environment}

theorem readArray_eq {kind : Kind} (hget : s.env.get name = .ok ⟨kind, .array elem items⟩) :
    readArray span name s = .ok (elem, items) s := by
  change EStateM.bind (readVariable span name) _ s = _
  unfold EStateM.bind
  rw [readVariable_eq hget]
  rfl

theorem readElement_eq {kind : Kind} (hget : s.env.get name = .ok ⟨kind, .array elem items⟩)
    (hi : checkedIndex i items.length = .ok n) (hv : items[n]? = some v) : readElement span name i s = .ok v s := by
  change EStateM.bind (readArray span name) _ s = _
  unfold EStateM.bind
  rw [readArray_eq hget]
  change EStateM.bind (liftAt span (checkedIndex i items.length)) _ s = _
  have hslot : liftAt span (checkedIndex i items.length) s = .ok n s := by
    rw [hi]
    rfl
  unfold EStateM.bind
  rw [hslot]
  dsimp only
  rw [hv]
  rfl

theorem readElement_error {kind : Kind} {e : EvalErrorKind} (hget : s.env.get name = .ok ⟨kind, .array elem items⟩)
    (hi : checkedIndex i items.length = .error e) : readElement span name i s = .error (.error ⟨e, span⟩) s := by
  change EStateM.bind (readArray span name) _ s = _
  unfold EStateM.bind
  rw [readArray_eq hget]
  change EStateM.bind (liftAt span (checkedIndex i items.length)) _ s = _
  rw [hi]
  rfl

theorem writeElement_eq {kind : Kind} {op : AssignOp} (hget : s.env.get name = .ok ⟨kind, .array elem items⟩)
    (hi : checkedIndex i items.length = .ok n) (hold : items[n]? = some old) (hu : combined op old v = .ok u)
    (hstored : elementOf u elem = .ok u) (hset : s.env.set name (.array elem (items.set i.toNat u)) = .ok env) :
    writeElement span name i op v s = .ok u { s with env } := by
  change EStateM.bind (readArray span name) _ s = _
  unfold EStateM.bind
  rw [readArray_eq hget]
  change EStateM.bind (readElement span name i) _ s = _
  unfold EStateM.bind
  rw [readElement_eq hget hi hold]
  have hstore : (do
      let stored ← liftAt span (elementOf u elem)
      writeVariable span name (.array elem (items.set i.toNat stored))
      return stored : Run Value) s = .ok u { s with env } := by
    rw [hstored]
    change EStateM.bind (writeVariable span name (.array elem (items.set i.toNat u))) _ s = _
    unfold EStateM.bind
    rw [writeVariable_eq hset]
    rfl
  cases op with
  | set =>
    cases hu
    exact hstore
  | add | sub =>
    dsimp only [combined, AssignOp.combine?] at hu
    change EStateM.bind (liftAt span (Value.binary _ old v)) _ s = _
    rw [hu]
    exact hstore

theorem writeElement_error {kind : Kind} {op : AssignOp} {e : EvalErrorKind}
    (hget : s.env.get name = .ok ⟨kind, .array elem items⟩) (hi : checkedIndex i items.length = .error e) :
    writeElement span name i op v s = .error (.error ⟨e, span⟩) s := by
  change EStateM.bind (readArray span name) _ s = _
  unfold EStateM.bind
  rw [readArray_eq hget]
  change EStateM.bind (readElement span name i) _ s = _
  unfold EStateM.bind
  rw [readElement_error hget hi]

theorem lengthOf_eq {kind : Kind} (hget : s.env.get name = .ok ⟨kind, .array elem items⟩) :
    lengthOf span name s = .ok (.int (Int32.ofNat (min items.length (2 ^ 31 - 1)))) s := by
  change EStateM.bind (readArray span name) _ s = _
  unfold EStateM.bind
  rw [readArray_eq hget]
  rfl

end Elements

end Evaluation

namespace Machine

open Assembly Evaluation
open Lowering (Frame Slot SlotKind addressCode storeElementCode)

/-! The check of an index -/

theorem Reaches.checkBounds {L : Layout} {lines : List Line} {start : Hart} {core : Core} {i j k : Nat}
    (hroutine : CodeAt lines i Routine.checkBounds.lines j) (hunique : ∀ l, Lowering.labelCount l lines ≤ 1)
    (hfits : L.Fits lines) (h : Reaches L lines start ⟨core, k⟩)
    (hl : lines[k]? = some (.jal Routine.checkBounds.label)) (hlength : k + 1 < lines.length) :
    if (core.get .a0).slt 0 = true ∨ (core.get .a0).slt (core.get .a1) = false then
      FailsIn L lines start i j
        (core.output ++ stringAt core.memory (L.data FixedString.outOfBounds.label) (2 ^ 32))
    else ∃ w, Reaches L lines start ⟨core.set .ra w, k + 1⟩ := by
  have hlines : Routine.checkBounds.lines =
      .label Routine.checkBounds.label :: .comment "a0 = index, a1 = length" ::
        .bltz .a0 (Routine.checkBounds.place "fail") :: .bge .a0 .a1 (Routine.checkBounds.place "fail") :: .ret ::
        .label (Routine.checkBounds.place "fail") :: (failWith .outOfBounds ++ [.ret]) := rfl
  rw [hlines, codeAt_label] at hroutine
  obtain ⟨hlabel, hroutine⟩ := hroutine
  obtain ⟨m, hcall, hm, hroutine⟩ := ((h.call hl hlabel (hunique _)).label hlabel).comment hroutine
  simp only [codeAt_instruction, codeAt_label, codeAt_append, codeAt_nil] at hroutine
  obtain ⟨hbltz, hbge, hret, hplace, m', hfail, -, rfl⟩ := hroutine
  have hfails (hg : Reaches L lines start ⟨core.set .ra (L.code (k + 1)), m + 1 + 1 + 1⟩) :
      FailsIn L lines start i (m' + 1)
        (core.output ++ stringAt core.memory (L.data FixedString.outOfBounds.label) (2 ^ 32)) :=
    ((hg.label hplace).fail hfail).mono (by omega) (Nat.le_succ m')
  have hlow := hcall.branchZero hbltz hplace (hunique _)
  rw [Core.get_set_of_ne (by decide)] at hlow
  by_cases hneg : (core.get .a0).slt 0 = true
  · rw [if_pos (.inl hneg)]
    rw [if_pos (by simpa [zeroBranchTaken] using hneg)] at hlow
    exact hfails hlow
  · rw [if_neg (by simpa [zeroBranchTaken] using hneg)] at hlow
    have hhigh := hlow.branch hbge hplace (hunique _)
    rw [Core.get_set_of_ne (by decide), Core.get_set_of_ne (by decide)] at hhigh
    cases hlt : (core.get .a0).slt (core.get .a1) with
    | false =>
      rw [if_pos (.inr rfl)]
      rw [if_pos (by simp [branchTaken, hlt])] at hhigh
      exact hfails hhigh
    | true =>
      rw [if_neg (not_or.mpr ⟨hneg, by decide⟩)]
      rw [if_neg (by simp [branchTaken, hlt])] at hhigh
      exact ⟨_, hhigh.ret hret hl hlength hfits (Core.get_set (by decide))⟩

/-! Addresses -/

namespace Region

variable {r : Region} {i : Int32}

theorem header_eq : r.address + .ofInt 32 (-wordBytes) = r.header := by
  unfold header wordBytes
  bv_omega

theorem element_eq (h : 0 ≤ i.toInt) : r.address + i.toBitVec <<< 2 = r.element i.toInt.toNat := by
  have htoNat : i.toInt.toNat = i.toBitVec.toNat := by
    have hpos : i.toInt = i.toBitVec.toNat := BitVec.toInt_eq_toNat_of_msb (by
      rw [BitVec.msb_eq_toInt]
      exact decide_eq_false (Int.not_lt.mpr h))
    omega
  rw [element, htoNat]
  bv_omega

theorem checked_eq (hr : r.Fits) :
    (i.toBitVec.slt 0 = true ∨ i.toBitVec.slt (.ofNat 32 r.length) = false) ↔
      ¬(0 ≤ i.toInt ∧ i.toInt < r.length) := by
  unfold Fits at hr
  have hlength : (BitVec.ofNat 32 r.length).toInt = r.length := by
    rw [← BitVec.ofInt_natCast, BitVec.toInt_ofInt, Int.bmod_eq_of_le] <;> omega
  have hzero : (0 : Word).toInt = 0 := rfl
  have hi : i.toBitVec.toInt = i.toInt := rfl
  rw [BitVec.slt, BitVec.slt, hlength, hzero, hi, decide_eq_true_iff, decide_eq_false_iff_not]
  omega

end Region

namespace Workspace

variable {p : Workspace} {k k' n : Nat} {core : Core} {f : Frame} {kept : Nat → Word} {s : State}
  {kind : SlotKind} {len len' : Option Nat} {array : String} {offset : Int} {slot : Slot} {elem : Scalar}
  {span : Span} {cx : Context} {c c₁ c₂ : List Line} {v : Value}

structure ArraySlot (f : Frame) (array : String) (offset : Int) (slot : Slot) (elem : Scalar) : Prop where
  plain : Agreement.Plain array
  resolved : f.resolve? array = some (offset, slot)
  kind : slot.kind = .array elem
  cell : elem.isCell = true

theorem ArraySlot.push (h : ArraySlot f array offset slot elem) :
    ArraySlot (f.push kind len) array (offset + wordBytes) slot elem where
  plain := h.plain
  resolved := by
    rw [Frame.resolve?_push, h.resolved]
    rfl
  kind := h.kind
  cell := h.cell

structure Addressed (p : Workspace) (f : Frame) (kept : Nat → Word) (s : State) (offset : Int) (elem : Scalar)
    (r : Region) (items : List Value) (n : Nat) (core : Core) : Prop where
  holds : p.Holds f kept s core
  array : HasArray core.loadWord r (.scalar elem) items
  address : core.loadWord (core.get .sp + .ofInt 32 offset) = r.address
  t0 : core.get .t0 = r.element n

theorem Holds.addressed {i : Int32} (h : p.Holds f kept s core) (ha : ArraySlot f array offset slot elem)
    (hg : Reaches p.layout p.lines p.start ⟨core, k⟩) (hc : CodeAt p.lines k (addressCode offset) k')
    (ht₀ : core.get .t0 = i.toBitVec) :
    ∃ r items, s.env.get array = .ok ⟨.array (.scalar elem), .array (.scalar elem) items⟩ ∧
      match checkedIndex i.toInt items.length with
      | .ok n => ∃ core', Reaches p.layout p.lines p.start ⟨core', k'⟩ ∧
          p.Addressed f kept s offset elem r items n core' ∧ core'.get .t2 = core.get .t2
      | .error _ => p.Exits := by
  obtain ⟨n, r, items, -, hr, hget, hitems, haddress⟩ := h.array ha.plain ha.resolved ha.kind ha.cell
  refine ⟨r, items, hget, ?_⟩
  have hlines : addressCode offset =
      [.lw .t1 offset .sp, .mv .a0 .t0, .lw .a1 (-wordBytes) .t1] ++
        (.jal Routine.checkBounds.label :: [.slli .t0 .t0 2, .add .t0 .t1 .t0]) := rfl
  rw [hlines, codeAt_append] at hc
  obtain ⟨m, hloads, hc⟩ := hc
  obtain ⟨hjal, hshift⟩ := codeAt_instruction.mp hc
  have hlength : m + 1 < p.lines.length :=
    (List.getElem?_eq_some_iff.mp (codeAt_instruction.mp hshift).1).1
  have hloaded : Reaches p.layout p.lines p.start
      ⟨((core.set .t1 r.address).set .a0 i.toBitVec).set .a1 (.ofNat 32 r.length), m⟩ := by
    apply Reaches.straight hloads _ hg
    simp [runLine, effect, moveOp, haddress, Region.header_eq, Core.get_set, Core.get_set_of_ne, ht₀]
    exact congrArg _ hitems.header
  obtain ⟨i', j, hroutine⟩ := p.linked.routine .checkBounds (List.mem_of_getElem? hjal)
  have hcheck := Reaches.checkBounds hroutine p.linked.unique p.linked.fits hloaded hjal hlength
  have hfits := p.fits hr
  rw [Core.get_set (by decide), Core.get_set_of_ne (by decide), Core.get_set (by decide)] at hcheck
  simp only [Region.checked_eq hfits] at hcheck
  unfold checkedIndex
  rw [hitems.length]
  by_cases hi : 0 ≤ i.toInt ∧ i.toInt < r.length
  · rw [if_neg (not_not.mpr hi)] at hcheck
    rw [if_pos hi]
    obtain ⟨w, hreturned⟩ := hcheck
    refine ⟨((((core.set .t1 r.address).set .a0 i.toBitVec).set .a1 (.ofNat 32 r.length)).set .ra w).set .t0
      (r.address + i.toBitVec <<< 2), Reaches.straight hshift ?_ hreturned, ⟨?_, hitems, ?_, ?_⟩, ?_⟩
    · simp [runLine, effect, immediateOp, registerOp, Core.get_set, Core.get_set_of_ne, ht₀]
    · exact ((((h.set (by decide) (by decide)).set (by decide) (by decide)).set (by decide) (by decide)).set
        (by decide) (by decide)).set (by decide) (by decide)
    · simp only [Core.get_set_of_ne, ne_eq, reduceCtorEq, not_false_eq_true]
      exact haddress
    · rw [Core.get_set (by decide), Region.element_eq hi.1]
    · simp only [Core.get_set_of_ne, ne_eq, reduceCtorEq, not_false_eq_true]
  · rw [if_pos hi] at hcheck
    rw [if_neg hi]
    exact exits_of_failsIn hcheck

/-! Reading and assigning elements -/

theorem exists_of_checkedIndex {items : List Value} {i : Int} (hi : checkedIndex i items.length = .ok n) :
    n = i.toNat ∧ n < items.length ∧ ∃ v, items[n]? = some v := by
  unfold checkedIndex at hi
  split at hi
  · cases hi
    have hlt : i.toNat < items.length := by omega
    exact ⟨rfl, hlt, _, List.getElem?_eq_getElem hlt⟩
  · cases hi

theorem follows_pushElement {i : Int32} (ha : ArraySlot f array offset slot elem) (hroom : f.slots.length < p.limit)
    (hc : CodeAt p.lines k (addressCode offset ++ ([.lw .t0 0 .t0] ++ push .t0)) k') :
    Triple (p.tracker.At k fun s core => p.Holds f kept s core ∧ core.get .t0 = i.toBitVec)
      (readElement span array i.toInt) (p.tracker.Pushed f kept (.scalar elem) none k') p.Halts := by
  rintro s ⟨core, hg, h, ht₀⟩
  obtain ⟨m, haddress, hread⟩ := codeAt_append.mp hc
  obtain ⟨r, items, hget, hchecked⟩ := Holds.addressed h ha hg haddress ht₀
  cases hi : checkedIndex i.toInt items.length with
  | error e =>
    rw [hi] at hchecked
    rw [readElement_error hget hi]
    exact hchecked
  | ok n =>
    rw [hi] at hchecked
    obtain ⟨core', hg', h', -⟩ := hchecked
    obtain ⟨-, -, v, hv⟩ := exists_of_checkedIndex hi
    rw [readElement_eq hget hi hv]
    apply Tracker.computed hg' h'.holds hroom (c := [.lw .t0 0 .t0]) hread
      (h'.array.cells _ (List.mem_of_getElem? hv))
    simp [runLine, effect, h'.t0, h'.array.words n _ hv]

theorem follows_readElement {x : Run Value} {ispan : Span} {P : State → Prop} (ha : ArraySlot f array offset slot elem)
    (hroom : f.slots.length < p.limit) (hx : Triple P x (p.tracker.Pushed f kept .int len k) p.Halts)
    (hc : CodeAt p.lines k (pop .t0 ++ (addressCode offset ++ ([.lw .t0 0 .t0] ++ push .t0))) k') :
    Triple P (do
      let position ← liftAt ispan (indexOfValue (← literal ispan x))
      readElement span array position) (p.tracker.Pushed f kept (.scalar elem) none k') p.Halts := by
  obtain ⟨m, hpop, hc⟩ := codeAt_append.mp hc
  apply Triple.bind (Tracker.follows_literal hx)
  intro v
  apply Triple.assuming fun _ hs => hs.value
  intro hv
  obtain ⟨i, rfl⟩ := (hv.hasWord nofun).exists_int
  apply (follows_pushElement ha hroom hc).pre
  rintro s ⟨-, core, hg, h⟩
  obtain ⟨core', hg', h', ht₀, -⟩ := p.tracker.popped hg h hpop (by decide)
  exact ⟨core', hg', h', ht₀⟩

theorem follows_keepingIndex {i : Int32} (ha : ArraySlot f array offset slot elem)
    (hroom : f.slots.length + 1 < p.limit)
    (hc : CodeAt p.lines k (.lw .t0 0 .sp :: (addressCode (offset + wordBytes) ++ ([.lw .t0 0 .t0] ++ push .t0))) k') :
    Triple (p.tracker.Pushed f kept .int len k (.int i)) (readElement span array i.toInt)
      (p.tracker.Pushed (f.push .int len) (Function.update kept f.slots.length i.toBitVec) (.scalar elem) none k')
      p.Halts := by
  obtain ⟨hload, hc⟩ := codeAt_instruction.mp hc
  apply (follows_pushElement ha.push hroom hc).pre
  rintro s ⟨-, core, hg, h⟩
  refine ⟨core.set .t0 i.toBitVec, hg.step (step_instruction hload ?_), Holds.set h (by decide) (by decide), ?_⟩
  · simp [effect, Holds.top h, wordOf]
  · exact Core.get_set (by decide)

theorem follows_writeElement {i : Int32} (ha : ArraySlot f array offset slot elem) (hv : HasCell (.scalar elem) v)
    (hc : CodeAt p.lines k (storeElementCode (offset + wordBytes + wordBytes)) k') :
    Triple (p.tracker.Pushed (f.push .int len) (Function.update kept f.slots.length i.toBitVec) (.scalar elem) len' k v)
      (writeElement span array i.toInt .set v) (p.tracker.Pushed f kept (.scalar elem) len k') p.Halts := by
  rintro s ⟨-, core, hg, h⟩
  have hlines : storeElementCode (offset + wordBytes + wordBytes) =
      [.lw .t2 0 .sp, .lw .t0 wordBytes .sp] ++ (addressCode (offset + wordBytes + wordBytes) ++
        ([.sw .t2 0 .t0, .sw .t2 wordBytes .sp] ++ release wordBytes)) := by
    simp only [storeElementCode, List.append_assoc]
  rw [hlines] at hc
  obtain ⟨m₁, hloads, hc⟩ := codeAt_append.mp hc
  obtain ⟨m₂, haddress, hstore⟩ := codeAt_append.mp hc
  have hloaded : Reaches p.layout p.lines p.start ⟨(core.set .t2 (wordOf v)).set .t0 i.toBitVec, m₁⟩ := by
    apply Reaches.straight hloads _ hg
    have hsecond : core.loadWord (core.get .sp + .ofInt 32 wordBytes) = i.toBitVec := Holds.second h
    have hsecond : (core.set .t2 (wordOf v)).loadWord (core.get .sp + .ofInt 32 wordBytes) = i.toBitVec := hsecond
    simp [runLine, effect, Core.get_set_of_ne, Holds.top h, hsecond]
  have h₁ : p.Holds ((f.push .int len).push (.scalar elem) len')
      (Function.update (Function.update kept f.slots.length i.toBitVec) (f.slots.length + 1) (wordOf v)) s
      ((core.set .t2 (wordOf v)).set .t0 i.toBitVec) :=
    Holds.set (Holds.set h (by decide) (by decide)) (by decide) (by decide)
  obtain ⟨r, items, hget, hchecked⟩ := h₁.addressed ha.push.push hloaded haddress (Core.get_set (by decide))
  cases hi : checkedIndex i.toInt items.length with
  | error e =>
    rw [hi] at hchecked
    rw [writeElement_error hget hi]
    exact hchecked
  | ok n =>
    rw [hi] at hchecked
    obtain ⟨core₂, hg₂, h₂, ht₂⟩ := hchecked
    obtain ⟨rfl, hlt, old, hold⟩ := exists_of_checkedIndex hi
    have helement : elementOf v (.scalar elem) = .ok v := by
      have hcoerce : v.coerce (.scalar elem) = .ok v := Agreement.coerce_of_kind hv.kind_eq
      rw [elementOf, hcoerce]
    obtain ⟨env, hset, h₃⟩ := h₂.holds.storedElement ha.plain ha.push.push.resolved ha.kind ha.cell hget
      h₂.address h₂.array.length hlt hv
    rw [writeElement_eq hget hi hold rfl helement hset]
    refine ⟨hv, _, Reaches.straight hstore ?_ hg₂, h₃.replaced⟩
    rw [Core.get_set_of_ne (by decide), Core.get_set (by decide)] at ht₂
    have hrelease : release wordBytes = [.addi .sp .sp wordBytes] := rfl
    simp [runLine, effect, hrelease, immediateOp, h₂.t0, ht₂]

theorem follows_lengthOf (ha : ArraySlot f array offset slot elem) (hroom : f.slots.length < p.limit)
    (hc : CodeAt p.lines k ([.lw .t0 offset .sp, .lw .t0 (-wordBytes) .t0] ++ push .t0) k') :
    Triple (p.tracker.At k (p.Holds f kept)) (lengthOf span array) (p.tracker.Pushed f kept .int none k') p.Halts := by
  rintro s ⟨core, hg, h⟩
  obtain ⟨n, r, items, -, hr, hget, hitems, haddress⟩ := Holds.array h ha.plain ha.resolved ha.kind ha.cell
  rw [lengthOf_eq hget]
  apply Tracker.computed hg h hroom hc (.int _)
  have hlength : wordOf (.int (Int32.ofNat (min items.length (2 ^ 31 - 1)))) = .ofNat 32 r.length := by
    have hfits := p.fits hr
    unfold Region.Fits at hfits
    rw [hitems.length, Nat.min_eq_left (by omega)]
    rfl
  rw [hlength]
  have hheader : (core.set .t0 r.address).loadWord r.header = .ofNat 32 r.length := hitems.header
  simp [runLine, effect, haddress, Region.header_eq, hheader, Core.get_set]

end Workspace

end Machine

end Arbor
