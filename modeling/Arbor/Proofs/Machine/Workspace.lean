import Arbor.Proofs.Lowering.Places
import Arbor.Proofs.Machine.Passage
import Arbor.Proofs.Machine.Region

/-!
This module contains the runs of a machine on programs with arrays: its stack agrees with the scopes of the evaluator,
and each variable that holds an array has a region of its own.
-/

namespace Arbor

open Assembly Agreement
open Lowering (Frame Slot SlotKind)

/-! Slots -/

namespace Agreement

variable {visible : String → Prop} {named : Nat → Slot → Binding → Prop} {temp : Nat → Prop} {slots : List Slot}
  {d : Nat} {stack : List (List (String × Binding))} {f : Frame} {env : Environment}

theorem Models.size_eq (h : Models visible named temp slots d stack) : ∀ s ∈ slots, s.size = wordBytes := by
  induction h with
  | base => simp
  | temp _ hword _ _ ih | named _ hword _ _ _ _ ih =>
    rw [List.forall_mem_cons]
    exact ⟨hword.size, ih⟩
  | opened _ ih => exact ih
  | hidden _ _ _ hbase _ hidx _ ih =>
    rw [List.forall_mem_cons, List.forall_mem_cons]
    exact ⟨hidx.size, hbase.size, ih⟩

theorem Bound.nested (h : Bound visible named temp f env) : f.Nested := by
  obtain ⟨_, _, h⟩ := h
  exact ⟨h.depth_le, h.size_eq⟩

end Agreement

def Lowering.Frame.IsVariable (f : Frame) (n : Nat) : Prop :=
  ∃ slot name, f.slots.reverse[n]? = some slot ∧ slot.name = some name ∧ Plain name

namespace Lowering.Frame

variable {f : Frame} {kind : SlotKind} {len : Option Nat} {n : Nat}

theorem isVariable_push : (f.push kind len).IsVariable n ↔ f.IsVariable n := by
  have hslots : (f.push kind len).slots.reverse = f.slots.reverse ++ [⟨kind, wordBytes, f.depth, none, len⟩] :=
    List.reverse_cons
  unfold IsVariable
  rw [hslots, List.getElem?_append]
  split
  · exact Iff.rfl
  · next hn =>
    rw [List.getElem?_eq_none (Nat.not_lt.mp hn)]
    constructor
    · rintro ⟨slot, name, hslot, hname, -⟩
      rw [List.getElem?_singleton] at hslot
      split at hslot
      · cases hslot
        cases hname
      · cases hslot
    · rintro ⟨_, _, hslot, -⟩
      cases hslot

theorem isVariable_of_place? {name : String} {slot : Slot} (h : f.place? name = some (n, slot)) (hname : Plain name) :
    f.IsVariable n :=
  ⟨slot, name, (slot_of_place? h).1, (slot_of_place? h).2, hname⟩

theorem not_isVariable_top : ¬(f.push kind len).IsVariable f.slots.length := by
  rw [isVariable_push]
  rintro ⟨slot, name, hslot, -⟩
  have hlt := (List.getElem?_eq_some_iff.mp hslot).1
  rw [List.length_reverse] at hlt
  exact Nat.lt_irrefl _ hlt

end Lowering.Frame

namespace Machine

open Evaluation (State Halt)

theorem CoversWord.le_sub {P : Word → Prop} {a x : Word} (ha : CoversWord P a) (hx : ¬P x) : 4 ≤ x - a := by
  by_contra hlt
  obtain ⟨j, hj, rfl⟩ := exists_add_of_sub_lt (BitVec.not_le.mp hlt)
  exact hx (ha j hj)

/--
What is known of the memory besides the stack and the arrays of ints, bools and chars: the places that texts may
take up, the words that may be in the pointer to the heap, with the bytes that may be in the memory then, and the
words that stand for the values of variables of other kinds, given the pointer and the bytes.
-/
structure Heap where
  place : Word → Prop
  holds : Word → (Word → BitVec 8) → Prop
  stands : Word → (Word → BitVec 8) → SlotKind → Word → Value → Prop

structure Heap.Within (H H' : Heap) : Prop where
  place : ∀ a, H.place a → H'.place a
  holds : ∀ w memory, H.holds w memory → H'.holds w memory
  stands : ∀ w memory kind a v, H.stands w memory kind a v → H'.stands w memory kind a v

theorem Heap.Within.refl (H : Heap) : H.Within H :=
  ⟨fun _ h => h, fun _ _ h => h, fun _ _ _ _ _ h => h⟩

theorem Heap.Within.trans {H H' H'' : Heap} (h : H.Within H') (h' : H'.Within H'') : H.Within H'' :=
  ⟨fun a ha => h'.place a (h.place a ha), fun w memory hw => h'.holds w memory (h.holds w memory hw),
    fun w memory kind a v hv => h'.stands w memory kind a v (h.stands w memory kind a v hv)⟩

/--
A machine before its run through code, with room for a number of words on its stack. The slots of arrays have regions,
apart from each other and from the stack. Code may leave some bytes as they were.
-/
structure Workspace where
  layout : Layout
  lines : List Line
  linked : Linked layout lines
  start : Hart
  base : Word
  limit : Nat
  room : 4 * limit ≤ 2 ^ 32
  regions : Nat → Option Region
  fits : ∀ {n r}, regions n = some r → r.Fits
  apart : ∀ {n m r r'}, n ≠ m → regions n = some r → regions m = some r' → r.Apart r'
  offStack : ∀ {n r}, regions n = some r → ∀ a, InStack base limit a → ¬r.Covers a
  spared : Word → Prop
  heap : Heap

namespace Workspace

/--
The bytes that neither the stack nor an array takes up.
-/
def Outside (p : Workspace) (a : Word) : Prop :=
  ¬InStack p.base p.limit a ∧ ∀ n r, p.regions n = some r → ¬r.Covers a

/--
The bytes that neither the stack nor an array takes up, of those that are to be spared.
-/
structure Spares (p : Workspace) (a : Word) : Prop where
  spared : p.spared a
  stack : ¬InStack p.base p.limit a
  regions : ∀ n r, p.regions n = some r → ¬r.Covers a

def Beside (p : Workspace) (core : Core) (P : Word → (Word → BitVec 8) → Prop) : Prop :=
  ∃ memory, P (core.get .hp) memory ∧ ∀ a, p.Outside a → core.memory a = memory a

/--
A word stands for the value of a variable of another kind.
-/
def Stands (p : Workspace) (core : Core) (kind : SlotKind) (a : Word) (v : Value) : Prop :=
  p.Beside core fun w memory => p.heap.stands w memory kind a v

/--
A slot holds what its binding says: the word of an int, a bool or a char, the address of an array of such values, or a
word that stands for a value of another kind.
-/
structure Variable (p : Workspace) (core : Core) (n : Nat) (slot : Slot) (b : Binding) : Prop where
  lt : n < p.limit
  kind : b.kind = slot.kind.kind
  cell : ∀ s, slot.kind = .scalar s → s.isCell = true →
    HasCell slot.kind b.value ∧ core.loadWord (slotAt p.base n) = wordOf b.value
  array : ∀ elem, slot.kind = .array elem → elem.isCell = true → ∃ r items, p.regions n = some r ∧
    core.loadWord (slotAt p.base n) = r.address ∧ b.value = .array (.scalar elem) items ∧
    HasArray core.loadWord r (.scalar elem) items
  other : ∀ s, slot.kind = .scalar s ∨ slot.kind = .array s → s.isCell = false →
    p.Stands core slot.kind (core.loadWord (slotAt p.base n)) b.value

/--
The machine agrees with a state of the evaluator. The words of the slots that are no variables are given.
-/
structure Holds (p : Workspace) (f : Frame) (kept : Nat → Word) (s : State) (core : Core) : Prop where
  le : f.slots.length ≤ p.limit
  sp : core.get .sp = stackTop p.base f.bytes
  bound : Bound Plain (p.Variable core) (fun _ => True) f s.env
  kept : ∀ n < f.slots.length, ¬f.IsVariable n → core.loadWord (slotAt p.base n) = kept n
  memory : ∀ a, p.Spares a → core.memory a = p.start.core.memory a
  heap : p.Beside core p.heap.holds

def Exits (p : Workspace) : Prop :=
  ∃ core k, Reaches p.layout p.lines p.start ⟨core, k⟩ ∧ step p.layout p.lines ⟨core, k⟩ = .exited 1

/--
An evaluation that fails goes with a machine that exits. Nothing is said of evaluations that run out of fuel.
-/
def Halts (p : Workspace) : Halt → State → Prop
  | .error _, _ => p.Exits
  | .outOfFuel, _ => True

def withHeap (p : Workspace) (heap : Heap) : Workspace :=
  { p with heap }

def relisted (p : Workspace) {lines : List Line} (hlinked : Linked p.layout lines) (start : Hart) : Workspace :=
  { p with lines, linked := hlinked, start }

/--
A machine has the bytes of the start that are to be spared.
-/
def Resumes (p : Workspace) (start : Hart) : Prop :=
  ∀ a, p.Spares a → start.core.memory a = p.start.core.memory a

variable {p : Workspace} {k k' n m : Nat} {core : Core} {f : Frame} {kept : Nat → Word} {s : State}
  {kind kind' : SlotKind} {len len' : Option Nat} {rd : Register} {w : Word} {name : String} {slot : Slot}
  {b : Binding} {offset : Int} {v : Value}

theorem Beside.congr {core' : Core} {P : Word → (Word → BitVec 8) → Prop} (h : p.Beside core P)
    (hhp : core'.get .hp = core.get .hp) (hmemory : ∀ a, p.Outside a → core'.memory a = core.memory a) :
    p.Beside core' P := by
  obtain ⟨memory, hheap, hbytes⟩ := h
  exact ⟨memory, hhp ▸ hheap, fun a ha => (hmemory a ha).trans (hbytes a ha)⟩

theorem Beside.mono {P Q : Word → (Word → BitVec 8) → Prop} (h : p.Beside core P)
    (hPQ : ∀ w memory, P w memory → Q w memory) : p.Beside core Q := by
  obtain ⟨memory, hheap, hbytes⟩ := h
  exact ⟨memory, hPQ _ _ hheap, hbytes⟩

theorem slotAt_apart (hn : n < p.limit) (hm : m < p.limit) (hne : n ≠ m) :
    (core.storeWord (slotAt p.base n) w).loadWord (slotAt p.base m) = core.loadWord (slotAt p.base m) := by
  have hroom := p.room
  exact loadWord_storeWord_slot hne (by omega) (by omega)

namespace Variable

theorem congr {core' : Core} (h : p.Variable core n slot b) (hmemory : core'.memory = core.memory)
    (hhp : core'.get .hp = core.get .hp) : p.Variable core' n slot b := by
  have hload : core'.loadWord = core.loadWord := by
    funext a
    simp only [Core.loadWord, hmemory]
  refine ⟨h.lt, h.kind, ?_, ?_, fun s hs hother => ?_⟩
  · rw [hload]
    exact h.cell
  · rw [hload]
    exact h.array
  · rw [hload]
    exact (h.other s hs hother).congr hhp fun a _ => congrFun hmemory a

theorem storeSlot (h : p.Variable core n slot b) (hm : m < p.limit) (hne : n ≠ m) :
    p.Variable (core.storeWord (slotAt p.base m) w) n slot b := by
  have hload : (core.storeWord (slotAt p.base m) w).loadWord (slotAt p.base n) = core.loadWord (slotAt p.base n) :=
    slotAt_apart hm h.lt hne.symm
  have hcovers : CoversWord (InStack p.base p.limit) (slotAt p.base m) := coversWord_slotAt hm p.room
  refine ⟨h.lt, h.kind, fun s hs hcell => ?_, fun elem helem hcell => ?_, fun s hs hother => ?_⟩
  · rw [hload]
    exact h.cell s hs hcell
  · obtain ⟨r, items, hr, haddress, hvalue, hitems⟩ := h.array elem helem hcell
    exact ⟨r, items, hr, hload.trans haddress, hvalue, hitems.storeWord (p.fits hr) hcovers (p.offStack hr)⟩
  · rw [hload]
    exact (h.other s hs hother).congr Core.get_storeWord fun a ha => Core.memory_storeWord (hcovers.le_sub ha.1)

theorem storeRegion {r : Region} {a : Word} (h : p.Variable core n slot b) (hr : p.regions m = some r)
    (hcovers : CoversWord r.Covers a) (hne : n ≠ m) : p.Variable (core.storeWord a w) n slot b := by
  have hword : (core.storeWord a w).loadWord (slotAt p.base n) = core.loadWord (slotAt p.base n) :=
    hcovers.loadWord_storeWord (coversWord_slotAt h.lt p.room) fun a ha hstack => p.offStack hr a hstack ha
  refine ⟨h.lt, h.kind, fun s hs hcell => ?_, fun elem helem hcell => ?_, fun s hs hother => ?_⟩
  · rw [hword]
    exact h.cell s hs hcell
  · obtain ⟨r', items, hr', haddress, hvalue, hitems⟩ := h.array elem helem hcell
    exact ⟨r', items, hr', hword.trans haddress, hvalue,
      hitems.storeWord (p.fits hr') hcovers (p.apart hne.symm hr hr')⟩
  · rw [hword]
    exact (h.other s hs hother).congr Core.get_storeWord
      fun a ha => Core.memory_storeWord (hcovers.le_sub (ha.2 m r hr))

theorem moved {q : Workspace} (h : p.Variable core n slot b) (hbase : q.base = p.base)
    (hlimit : q.limit = p.limit) (hregions : q.regions = p.regions)
    (hstands : ∀ kind a v, p.Stands core kind a v → q.Stands core kind a v) : q.Variable core n slot b where
  lt := hlimit ▸ h.lt
  kind := h.kind
  cell := hbase ▸ h.cell
  array := by
    rw [hbase, hregions]
    exact h.array
  other s hs hcell := hbase ▸ hstands _ _ _ (h.other s hs hcell)

end Variable

namespace Holds

/--
What a machine holds, it holds in every workspace with the same stack and the same arrays in which the rest of the
memory may be as it is.
-/
theorem moved {q : Workspace} (h : p.Holds f kept s core) (hbase : q.base = p.base) (hlimit : q.limit = p.limit)
    (hregions : q.regions = p.regions) (hmemory : ∀ a, q.Spares a → core.memory a = q.start.core.memory a)
    (hheap : q.Beside core q.heap.holds) (hstands : ∀ kind a v, p.Stands core kind a v → q.Stands core kind a v) :
    q.Holds f kept s core where
  le := hlimit ▸ h.le
  sp := hbase ▸ h.sp
  bound := h.bound.mono (fun _ _ _ _ hb => hb.moved hbase hlimit hregions hstands) fun _ _ h => h
  kept := hbase ▸ h.kept
  memory := hmemory
  heap := hheap

theorem relisted {lines : List Line} (h : p.Holds f kept s core) (hlinked : Linked p.layout lines) :
    (p.relisted hlinked ⟨core, k⟩).Holds f kept s core :=
  h.moved rfl rfl rfl (fun _ _ => rfl) h.heap fun _ _ _ h => h

theorem widened {heap : Heap} (h : p.Holds f kept s core) (hheap : p.heap.Within heap) :
    (p.withHeap heap).Holds f kept s core :=
  h.moved rfl rfl rfl (fun a ha => h.memory a ⟨ha.spared, ha.stack, ha.regions⟩)
    (h.heap.mono hheap.holds) fun kind a v hv => hv.mono fun w memory => hheap.stands w memory kind a v

theorem nested (h : p.Holds f kept s core) : f.Nested :=
  h.bound.nested

theorem bytes_eq (h : p.Holds f kept s core) : f.bytes = wordBytes * f.slots.length :=
  h.bound.bytes_eq

theorem congr {core' : Core} (h : p.Holds f kept s core) (hmemory : core'.memory = core.memory)
    (hsp : core'.get .sp = core.get .sp) (hhp : core'.get .hp = core.get .hp) : p.Holds f kept s core' := by
  have hload : core'.loadWord = core.loadWord := by
    funext a
    simp only [Core.loadWord, hmemory]
  refine ⟨h.le, hsp.trans h.sp, h.bound.mono (fun _ _ _ _ hb => hb.congr hmemory hhp) fun _ _ h => h, ?_, ?_, ?_⟩
  · rw [hload]
    exact h.kept
  · rw [hmemory]
    exact h.memory
  · exact h.heap.congr hhp fun a _ => congrFun hmemory a

theorem set (h : p.Holds f kept s core) (hsp : rd ≠ .sp) (hhp : rd ≠ .hp) : p.Holds f kept s (core.set rd w) :=
  h.congr rfl (Core.get_set_of_ne hsp.symm) (Core.get_set_of_ne hhp.symm)

theorem of_push (h : p.Holds (f.push kind len) kept s core) : Bound Plain (p.Variable core) (fun _ => True) f s.env :=
  (Bound.of_push h.bound).1

theorem retyped (h : p.Holds (f.push kind len) kept s core) : p.Holds (f.push kind' len') kept s core where
  le := h.le
  sp := by rw [h.sp, Frame.bytes_push, Frame.bytes_push]
  bound := h.of_push.push trivial
  kept n hn hother := h.kept n hn fun hvar => hother (Frame.isVariable_push.mpr (Frame.isVariable_push.mp hvar))
  memory := h.memory
  heap := h.heap

theorem sp_sub (h : p.Holds f kept s core) : core.get .sp - 4 = slotAt p.base f.slots.length := by
  rw [h.sp, h.bytes_eq, slotAt_eq, Int.mul_add, stackTop_add]
  rfl

theorem sp_push (h : p.Holds (f.push kind len) kept s core) : core.get .sp = slotAt p.base f.slots.length := by
  rw [h.sp, h.bytes_eq, slotAt_eq]
  rfl

theorem top (h : p.Holds (f.push kind len) (Function.update kept f.slots.length w) s core) :
    core.loadWord (core.get .sp) = w := by
  rw [h.sp_push, h.kept _ (Nat.lt_succ_self _) Frame.not_isVariable_top, Function.update_self]

theorem second_eq (h : p.Holds ((f.push kind len).push kind' len') kept s core) :
    core.get .sp + .ofInt 32 wordBytes = slotAt p.base f.slots.length := by
  rw [h.sp]
  apply stackTop_add_offset
  rw [h.bytes_eq]
  unfold wordBytes
  simp only [Frame.push, List.length_cons]
  omega

theorem second {w' : Word} (h : p.Holds ((f.push kind len).push kind' len')
    (Function.update (Function.update kept f.slots.length w) (f.slots.length + 1) w') s core) :
    core.loadWord (core.get .sp + .ofInt 32 wordBytes) = w := by
  have hlt : f.slots.length < ((f.push kind len).push kind' len').slots.length := by
    simp only [Frame.push, List.length_cons]
    omega
  have hother : ¬((f.push kind len).push kind' len').IsVariable f.slots.length := by
    rw [Frame.isVariable_push]
    exact Frame.not_isVariable_top
  rw [h.second_eq, h.kept _ hlt hother, Function.update_of_ne (Nat.ne_of_lt (Nat.lt_succ_self _)), Function.update_self]

theorem placed (h : p.Holds f kept s core) (hroom : f.slots.length < p.limit) :
    p.Holds (f.push kind len) (Function.update kept f.slots.length w) s
      ((core.set .sp (slotAt p.base f.slots.length)).storeWord (slotAt p.base f.slots.length) w) := by
  constructor
  case le => exact hroom
  case sp =>
    rw [Core.get_storeWord, Core.get_set (by decide), slotAt_eq, Frame.bytes_push, h.bytes_eq]
    rfl
  case bound =>
    apply Bound.push _ trivial
    apply h.bound.mono _ fun _ _ h => h
    intro n hn slot b hb
    have hlower : p.Variable (core.set .sp (slotAt p.base f.slots.length)) n slot b :=
      hb.congr rfl (Core.get_set_of_ne (by decide))
    exact hlower.storeSlot hroom (Nat.ne_of_lt hn)
  case kept =>
    intro n hn hother
    rcases Nat.lt_succ_iff_lt_or_eq.mp hn with hn | rfl
    · have hle := h.le
      rw [slotAt_apart hroom (by omega) (Nat.ne_of_gt hn), Function.update_of_ne (Nat.ne_of_lt hn)]
      exact h.kept n hn fun hvar => hother (Frame.isVariable_push.mpr hvar)
    · rw [Core.loadWord_storeWord, Function.update_self]
  case memory =>
    intro a ha
    rw [Core.memory_storeWord ((coversWord_slotAt hroom p.room).le_sub ha.stack)]
    exact h.memory a ha
  case heap =>
    apply h.heap.congr
    · rw [Core.get_storeWord, Core.get_set_of_ne (by decide)]
    · exact fun a ha => Core.memory_storeWord ((coversWord_slotAt hroom p.room).le_sub ha.1)

theorem dropped (h : p.Holds (f.push kind len) (Function.update kept f.slots.length w) s core) :
    p.Holds f kept s (core.set .sp (stackTop p.base f.bytes)) := by
  constructor
  case le => exact Nat.le_of_succ_le h.le
  case sp => rw [Core.get_set (by decide)]
  case bound => exact h.of_push.mono (fun _ _ _ _ hb => hb.congr rfl (Core.get_set_of_ne (by decide))) fun _ _ h => h
  case kept =>
    intro n hn hother
    have hkept := h.kept n (Nat.lt_succ_of_lt hn) fun hvar => hother (Frame.isVariable_push.mp hvar)
    rwa [Function.update_of_ne (Nat.ne_of_lt hn)] at hkept
  case memory => exact h.memory
  case heap => exact h.heap.congr (Core.get_set_of_ne (by decide)) fun _ _ => rfl

theorem pushed (kind : SlotKind) (len : Option Nat) (hrd : rd ≠ .sp)
    (hg : Reaches p.layout p.lines p.start ⟨core, k⟩) (h : p.Holds f kept s core)
    (hroom : f.slots.length < p.limit) (hc : CodeAt p.lines k (push rd) k') :
    ∃ core', Reaches p.layout p.lines p.start ⟨core', k'⟩ ∧
      p.Holds (f.push kind len) (Function.update kept f.slots.length (core.get rd)) s core' ∧
      core'.get .hp = core.get .hp := by
  have hg' := hg.push hrd hc
  rw [h.sp_sub] at hg'
  refine ⟨_, hg', h.placed hroom, ?_⟩
  rw [Core.get_storeWord, Core.get_set_of_ne (by decide)]

theorem runLines_pop (h : p.Holds (f.push kind len) (Function.update kept f.slots.length w) s core) (hsp : rd ≠ .sp) :
    runLines p.layout core (pop rd) = some ((core.set rd w).set .sp (stackTop p.base f.bytes)) := by
  have hraise : core.get .sp + .ofInt 32 wordBytes = stackTop p.base f.bytes := by
    rw [h.sp, Frame.bytes_push, stackTop_add, BitVec.sub_add_cancel]
  simp [pop, runLine, effect, immediateOp, Core.get_set_of_ne hsp.symm, hraise, h.top]

theorem popped (hg : Reaches p.layout p.lines p.start ⟨core, k⟩)
    (h : p.Holds (f.push kind len) (Function.update kept f.slots.length w) s core)
    (hc : CodeAt p.lines k (pop rd) k') (hzero : rd ≠ .zero) (hsp : rd ≠ .sp) (hhp : rd ≠ .hp) :
    ∃ core', Reaches p.layout p.lines p.start ⟨core', k'⟩ ∧ p.Holds f kept s core' ∧ core'.get rd = w ∧
      ∀ r, r ≠ rd → r ≠ .sp → core'.get r = core.get r := by
  refine ⟨_, Reaches.straight hc (h.runLines_pop hsp) hg, (h.set hsp hhp).dropped, ?_, ?_⟩
  · rw [Core.get_set_of_ne hsp, Core.get_set hzero]
  · intro r hr hne
    rw [Core.get_set_of_ne hne, Core.get_set_of_ne hr]

theorem replaced {w' : Word} (h : p.Holds ((f.push kind len).push kind' len')
    (Function.update (Function.update kept f.slots.length w) (f.slots.length + 1) w') s core) :
    p.Holds (f.push kind' len) (Function.update kept f.slots.length w') s
      ((core.storeWord (core.get .sp + .ofInt 32 wordBytes) w').set .sp (core.get .sp + .ofInt 32 wordBytes)) := by
  have hle := h.le
  simp only [Frame.push, List.length_cons] at hle
  have hplaced := @placed _ _ _ _ _ kind' len w' (Holds.dropped (Holds.dropped h)) (by omega)
  rw [Core.set_set, Core.set_set] at hplaced
  rw [h.second_eq]
  exact hplaced

theorem found (h : p.Holds f kept s core) (hname : Plain name) (hslot : f.resolve? name = some (offset, slot)) :
    ∃ n b, Found Plain (p.Variable core) (fun _ => True) f s.env name n slot b ∧
      f.place? name = some (n, slot) ∧ core.get .sp + .ofInt 32 offset = slotAt p.base n := by
  obtain ⟨n, b, hfound, hoffset⟩ := h.bound.found hname hslot
  obtain ⟨n', hplace, hoffset'⟩ := h.nested.place?_of_resolve? hslot
  rw [h.bytes_eq] at hoffset'
  have hn : n' = n := by
    unfold wordBytes at hoffset hoffset'
    omega
  subst hn
  refine ⟨n', b, hfound, hplace, ?_⟩
  rw [h.sp, h.bytes_eq]
  exact stackTop_add_offset hoffset

theorem loaded {scalar : Scalar} (h : p.Holds f kept s core) (hname : Plain name)
    (hslot : f.resolve? name = some (offset, slot)) (hkind : slot.kind = .scalar scalar)
    (hcell : scalar.isCell = true) :
    ∃ b, s.env.get name = .ok b ∧ b.kind = slot.kind.kind ∧ HasCell slot.kind b.value ∧
      core.loadWord (core.get .sp + .ofInt 32 offset) = wordOf b.value := by
  obtain ⟨n, b, hfound, -, hplace⟩ := h.found hname hslot
  obtain ⟨hvalue, hword⟩ := hfound.holds.cell scalar hkind hcell
  exact ⟨b, hfound.get, hfound.holds.kind, hvalue, by rw [hplace, hword]⟩

theorem storedWord {u : Word} (h : p.Holds f kept s core) (hname : Plain name)
    (hslot : f.resolve? name = some (offset, slot))
    (hv : ∀ n b, p.Variable core n slot b →
      p.Variable (core.storeWord (slotAt p.base n) u) n slot { b with value := v }) :
    ∃ env, s.env.set name v = .ok env ∧
      p.Holds f kept { s with env } (core.storeWord (core.get .sp + .ofInt 32 offset) u) := by
  obtain ⟨n, b, hfound, hnamed, hplace⟩ := h.found hname hslot
  have hn := hfound.holds.lt
  obtain ⟨env, hset, hbound⟩ : ∃ env, s.env.set name v = .ok env ∧
      Bound Plain (p.Variable (core.storeWord (slotAt p.base n) u)) (fun _ => True) f env :=
    hfound.set (fun m hm slot b hb => hb.storeSlot hn hm) (fun _ _ h => h) (hv n b hfound.holds)
  refine ⟨env, hset, ?_⟩
  rw [hplace]
  constructor
  case le => exact h.le
  case sp => rw [Core.get_storeWord, h.sp]
  case bound => exact hbound
  case kept =>
    intro m hm hother
    have hne : n ≠ m := fun heq => hother (heq ▸ Frame.isVariable_of_place? hnamed hname)
    rw [slotAt_apart hn (Nat.lt_of_lt_of_le hm h.le) hne]
    exact h.kept m hm hother
  case memory =>
    intro a ha
    rw [Core.memory_storeWord ((coversWord_slotAt hn p.room).le_sub ha.stack), h.memory a ha]
  case heap =>
    exact h.heap.congr Core.get_storeWord fun a ha =>
      Core.memory_storeWord ((coversWord_slotAt hn p.room).le_sub ha.1)

theorem stored {scalar : Scalar} (h : p.Holds f kept s core) (hname : Plain name)
    (hslot : f.resolve? name = some (offset, slot)) (hkind : slot.kind = .scalar scalar) (hv : HasCell slot.kind v) :
    ∃ env, s.env.set name v = .ok env ∧
      p.Holds f kept { s with env } (core.storeWord (core.get .sp + .ofInt 32 offset) (wordOf v)) := by
  apply h.storedWord hname hslot
  intro n b hb
  refine ⟨hb.lt, hb.kind, fun _ _ _ => ⟨hv, Core.loadWord_storeWord⟩, fun elem helem => ?_, fun s hs hother => ?_⟩
  · rw [hkind] at helem
    cases helem
  · rw [hkind] at hs hv
    rcases hs with hs | hs <;> cases hs
    rw [hv.isCell] at hother
    cases hother

theorem array {elem : Scalar} (h : p.Holds f kept s core) (hname : Plain name)
    (hslot : f.resolve? name = some (offset, slot)) (hkind : slot.kind = .array elem) (hcell : elem.isCell = true) :
    ∃ n r items, f.place? name = some (n, slot) ∧ p.regions n = some r ∧ s.env.get name =
        .ok ⟨.array (.scalar elem), .array (.scalar elem) items⟩ ∧ HasArray core.loadWord r (.scalar elem) items ∧
      core.loadWord (core.get .sp + .ofInt 32 offset) = r.address := by
  obtain ⟨n, ⟨kind, value⟩, hfound, hnamed, hplace⟩ := h.found hname hslot
  obtain ⟨r, items, hr, hword, hvalue, hitems⟩ := hfound.holds.array elem hkind hcell
  have hb := hfound.holds.kind
  rw [hkind] at hb
  cases hb
  cases hvalue
  exact ⟨n, r, items, hnamed, hr, hfound.get, hitems, by rw [hplace, hword]⟩

theorem storedElement {elem : Scalar} {r : Region} {items : List Value} {i : Nat} (h : p.Holds f kept s core)
    (hname : Plain name) (hslot : f.resolve? name = some (offset, slot)) (hkind : slot.kind = .array elem)
    (hcell : elem.isCell = true) (hget : s.env.get name = .ok ⟨.array (.scalar elem), .array (.scalar elem) items⟩)
    (haddress : core.loadWord (core.get .sp + .ofInt 32 offset) = r.address) (hlength : items.length = r.length)
    (hi : i < items.length) (hv : HasCell (.scalar elem) v) :
    ∃ env, s.env.set name (.array (.scalar elem) (items.set i v)) = .ok env ∧
      p.Holds f kept { s with env } (core.storeWord (r.element i) (wordOf v)) := by
  obtain ⟨n, b, hfound, -, hplace⟩ := h.found hname hslot
  obtain ⟨r', items', hr, hword, hvalue, hitems⟩ := hfound.holds.array elem hkind hcell
  rw [hfound.get] at hget
  cases hget
  cases hvalue
  have hregion : r = r' := by
    rw [hplace, hword] at haddress
    cases r
    cases r'
    simp_all [hitems.length]
  subst hregion
  have hn := hfound.holds.lt
  have hcovers := (p.fits hr).coversWord_element (hlength ▸ hi)
  have hslots {m : Nat} (hm : m < p.limit) :
      (core.storeWord (r.element i) (wordOf v)).loadWord (slotAt p.base m) = core.loadWord (slotAt p.base m) :=
    hcovers.loadWord_storeWord (coversWord_slotAt hm p.room) fun a ha hstack => p.offStack hr a hstack ha
  obtain ⟨env, hset, hbound⟩ : ∃ env, s.env.set name (.array (.scalar elem) (items.set i v)) = .ok env ∧
      Bound Plain (p.Variable (core.storeWord (r.element i) (wordOf v))) (fun _ => True) f env := by
    apply hfound.set
    · exact fun m hm slot b hb => hb.storeRegion hr hcovers hm
    · exact fun _ _ h => h
    · refine ⟨hn, hfound.holds.kind, fun s hs => ?_, fun elem' helem' _ => ?_, fun s hs hother => ?_⟩
      · rw [hkind] at hs
        cases hs
      · rw [hkind] at helem'
        cases helem'
        exact ⟨r, _, hr, (hslots hn).trans hword, rfl, hitems.set (p.fits hr) hi hv⟩
      · rw [hkind] at hs
        rcases hs with hs | hs <;> cases hs
        rw [hcell] at hother
        cases hother
  refine ⟨env, hset, ?_⟩
  constructor
  case le => exact h.le
  case sp => rw [Core.get_storeWord, h.sp]
  case bound => exact hbound
  case kept =>
    intro m hm hother
    rw [hslots (Nat.lt_of_lt_of_le hm h.le)]
    exact h.kept m hm hother
  case memory =>
    intro a ha
    rw [Core.memory_storeWord (hcovers.le_sub (ha.regions n r hr)), h.memory a ha]
  case heap => exact h.heap.congr Core.get_storeWord fun a ha => Core.memory_storeWord (hcovers.le_sub (ha.2 n r hr))

end Holds

theorem exits_of_failsIn {i j : Nat} {output : List UInt8} (h : FailsIn p.layout p.lines p.start i j output) :
    p.Exits := by
  obtain ⟨core, k, hg, -, -, hexit, -⟩ := h
  exact ⟨core, k, hg, hexit⟩

theorem ne_hp_of_mem_workRegisters : ∀ rd ∈ workRegisters, rd ≠ .hp := by
  decide

theorem divided (hg : Reaches p.layout p.lines p.start ⟨core, k⟩)
    (hl : p.lines[k]? = some (.jal Routine.checkDivZero.label)) (hlength : k + 1 < p.lines.length) :
    if core.get .a0 = 0 then p.Exits else ∃ w, Reaches p.layout p.lines p.start ⟨core.set .ra w, k + 1⟩ := by
  obtain ⟨i, j, hroutine⟩ := p.linked.routine .checkDivZero (List.mem_of_getElem? hl)
  have hcheck := Reaches.checkDivZero hroutine p.linked.unique p.linked.fits hg hl hlength
  split
  · next hzero =>
    rw [if_pos hzero] at hcheck
    exact exits_of_failsIn hcheck
  · next hzero =>
    rwa [if_neg hzero] at hcheck

def tracker (p : Workspace) : Tracker where
  layout := p.layout
  lines := p.lines
  start := p.start
  Holds := p.Holds
  Names name slot := Plain name ∧ ∃ scalar, slot.kind = .scalar scalar ∧ scalar.isCell = true
  HasRoom n := n < p.limit
  Fails _ := p.Exits
  unique := p.linked.unique
  set h hrd := h.set (ne_of_mem_workRegisters _ hrd).2 (ne_hp_of_mem_workRegisters _ hrd)
  retyped := Holds.retyped
  pushed hg h hroom hc := by
    obtain ⟨core', hg', h', -⟩ := Holds.pushed _ _ (by decide) hg h hroom hc
    exact ⟨core', hg', h'⟩
  top := Holds.top
  popped hg h hc hrd := h.popped hg hc (ne_of_mem_workRegisters _ hrd).1 (ne_of_mem_workRegisters _ hrd).2
    (ne_hp_of_mem_workRegisters _ hrd)
  loaded h hname hslot := by
    obtain ⟨hplain, scalar, hkind, hcell⟩ := hname
    obtain ⟨b, hget, hb, hvalue, hword⟩ := h.loaded hplain hslot hkind hcell
    exact ⟨b, hget, hb, hvalue, by rw [effect, hword]⟩
  stored hg h hl hname hslot hv ht₀ := by
    obtain ⟨hplain, scalar, hkind, -⟩ := hname
    obtain ⟨env, hset, h'⟩ := h.stored hplain hslot hkind hv
    refine ⟨env, _, hset, hg.step (step_instruction hl ?_), h', fun r => Core.get_storeWord⟩
    rw [effect, ht₀]
  divided hg _ := divided hg

theorem Exits.halts {halt : Halt} (h : p.Exits) : p.Halts halt s := by
  cases halt with
  | error e => exact h
  | outOfFuel => exact trivial

theorem halts_of_tracker {halt : Halt} (h : p.tracker.Halts halt s) : p.Halts halt s := by
  cases halt with
  | error e => exact h.2
  | outOfFuel => exact trivial

end Workspace

/-! A row of two ints -/

def rowProgram : Program where
  statements := [
    .varDecl .unplaced .int "i" (some (.literal .unplaced (.int 0))),
    .arrayDecl .unplaced .int 1 "v" (.values [.literal .unplaced (.int 1), .literal .unplaced (.int 2)])]

def rowGenerator : Lowering.State :=
  ((Lowering.Generator.start .default).lower rowProgram).2.state

theorem comments_rowGenerator : rowGenerator.assembler.comments = true := by
  decide +kernel

def rowState : State :=
  ((Evaluation.Session.start ⟨true, 0, 2⟩).run 9 rowProgram).session.state

def intValue? : Value → Option Int32
  | .int n => some n
  | _ => none

def intArray? (env : Environment) (name : String) : Option (List Int32) :=
  match env.get name with
  | .ok ⟨.array (.scalar .int), .array (.scalar .int) items⟩ => items.mapM intValue?
  | _ => none

theorem eq_map_of_mapM_intValue? {items : List Value} {ns : List Int32} (h : items.mapM intValue? = some ns) :
    items = ns.map .int := by
  induction items generalizing ns with
  | nil =>
    cases h
    rfl
  | cons v items ih =>
    rw [List.mapM_cons] at h
    obtain ⟨n, hn, h⟩ := Option.bind_eq_some_iff.mp h
    obtain ⟨ms, hms, h⟩ := Option.bind_eq_some_iff.mp h
    cases h
    rw [ih hms, List.map_cons]
    unfold intValue? at hn
    split at hn
    · cases hn
      rfl
    · cases hn

theorem get_of_intArray? {env : Environment} {name : String} {ns : List Int32} (h : intArray? env name = some ns) :
    env.get name = .ok ⟨.array (.scalar .int), .array (.scalar .int) (ns.map .int)⟩ := by
  unfold intArray? at h
  split at h
  · next hget => rw [hget, eq_map_of_mapM_intValue? h]
  · cases h

/--
A machine with the int and the address of the array on its stack. In the data section the array has the length of
another one after it, and behind that the heap begins.
-/
def rowCore : Core :=
  (((((((usualStart.core.set .sp 0x7fffeff4).storeWord 0x7fffeff8 0).storeWord 0x7fffeff4 0x10020004).storeWord
    0x10020000 2).storeWord 0x10020004 1).storeWord 0x10020008 2).storeWord 0x1002000c 1).set .hp 0x10020014

def rowCode (e : Expr) : List Line :=
  match Lowering.lowerExpr e rowGenerator with
  | .ok _ g => g.assembler.lines.toList.drop rowGenerator.assembler.lines.size
  | .error .. => []

def rowLines (e : Expr) : List Line :=
  rowCode e ++ Routine.checkBounds.lines

def rowWorkspace (lines : List Line) (h : Linked (.usual lines) lines) : Workspace where
  layout := .usual lines
  lines := lines
  linked := h
  start := ⟨rowCore, 0⟩
  base := 0x7fffeffc
  limit := 16
  room := by decide
  regions n := if n = 1 then some ⟨0x10020004, 2⟩ else none
  fits {n r} hr := by
    split at hr
    · cases hr
      unfold Region.Fits
      decide
    · cases hr
  apart {n m r r'} hne hr hr' := by
    split at hr
    · split at hr'
      · omega
      · cases hr'
    · cases hr
  offStack {n r} hr a ha := by
    split at hr
    · cases hr
      unfold InStack at ha
      unfold Region.Covers Region.header
      bv_omega
    · cases hr
  spared _ := True
  heap := ⟨fun _ => True, fun _ _ => True, fun _ _ _ _ _ => False⟩

theorem holds_rowCore {lines : List Line} (h : Linked (.usual lines) lines) :
    (rowWorkspace lines h).Holds rowGenerator.frame (fun n => rowCore.loadWord (slotAt 0x7fffeffc n))
      rowState rowCore := by
  have hframe : rowGenerator.frame = (Frame.empty.pushNamed .int none "i").pushNamed (.array .int) (some 2) "v" := by
    decide +kernel
  have henv : (do
      let env ← Evaluation.Session.startEnvironment.declare "i" (.scalar .int) (.int 0)
      env.declare "v" (.array (.scalar .int)) (.array (.scalar .int) [.int 1, .int 2])) = .ok rowState.env := rfl
  have hsp : rowCore.get .sp = stackTop 0x7fffeffc rowGenerator.frame.bytes := by decide +kernel
  have hwords : rowCore.loadWord (slotAt 0x7fffeffc 0) = 0 ∧ rowCore.loadWord (slotAt 0x7fffeffc 1) = 0x10020004 ∧
      rowCore.loadWord (Region.header ⟨0x10020004, 2⟩) = 2 ∧
      ∀ i < 2, rowCore.loadWord (Region.element ⟨0x10020004, 2⟩ i) = .ofNat 32 (i + 1) := by
    decide +kernel
  obtain ⟨hword₀, hword₁, hheader, hcells⟩ := hwords
  have hi : (rowWorkspace lines h).Variable rowCore 0 ⟨.int, wordBytes, 0, some "i", none⟩
      ⟨.scalar .int, .int 0⟩ := by
    refine ⟨of_decide_eq_true rfl, rfl, fun _ _ _ => ⟨.int 0, hword₀⟩, nofun, ?_⟩
    rintro _ (hkind | hkind) hother <;> cases hkind
    cases hother
  have hitems : HasArray rowCore.loadWord ⟨0x10020004, 2⟩ .int [.int 1, .int 2] := by
    refine ⟨rfl, hheader, fun u hu => ?_, fun n u hu => ?_⟩
    · rw [List.mem_pair] at hu
      rcases hu with rfl | rfl <;> exact .int _
    · match n, hu with
      | 0, hu | 1, hu =>
        cases hu
        exact hcells _ (by decide)
  have hv : (rowWorkspace lines h).Variable rowCore 1 ⟨.array .int, wordBytes, 0, some "v", some 2⟩
      ⟨.array (.scalar .int), .array (.scalar .int) [.int 1, .int 2]⟩ := by
    refine ⟨of_decide_eq_true rfl, rfl, nofun, fun elem helem _ => ?_, ?_⟩
    · cases helem
      exact ⟨_, _, rfl, hword₁, rfl, hitems⟩
    · rintro _ (hkind | hkind) hother <;> cases hkind
      cases hother
  have hplain : Declarable Plain "i" ∧ Declarable Plain "v" :=
    ⟨⟨by decide, by decide⟩, ⟨by decide, by decide⟩⟩
  obtain ⟨env₁, hdeclare₁, hbound₁⟩ := Bound.start.declare rfl hplain.1 hi
  obtain ⟨env₂, hdeclare₂, hbound₂⟩ := hbound₁.declare rfl hplain.2 hv
  rw [hdeclare₁] at henv
  have henv : env₂ = rowState.env := Except.ok.inj (hdeclare₂.symm.trans henv)
  rw [hframe] at hsp ⊢
  exact ⟨of_decide_eq_true rfl, hsp, henv ▸ hbound₂, fun _ _ _ => rfl, fun _ _ => rfl, _, trivial, fun _ _ => rfl⟩

end Machine

end Arbor
