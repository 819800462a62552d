import Arbor.Proofs.Machine.Following
import Arbor.Proofs.Machine.Strings

/-!
This module contains the texts on the heap of a workspace. The pointer to the heap grows below the stack, and
everything that the workspace keeps lies below it or above the stack.
-/

namespace Arbor.Machine

open Agreement Assembly Evaluation
open Lowering (Frame Slot SlotKind)

/-! Heaps that grow -/

def GrownFrom (n : Nat) (P : Word → (Word → BitVec 8) → Prop) (w : Word) (memory : Word → BitVec 8) : Prop :=
  ∃ (w₀ : Word) (memory₀ : Word → BitVec 8), P w₀ memory₀ ∧ w₀.toNat ≤ w.toNat ∧ w.toNat ≤ w₀.toNat + n ∧
    ∀ a : Word, a.toNat < w₀.toNat → memory a = memory₀ a

section GrownFrom

variable {P Q : Word → (Word → BitVec 8) → Prop} {n m : Nat} {w : Word} {memory : Word → BitVec 8}

theorem GrownFrom.of (h : P w memory) : GrownFrom n P w memory :=
  ⟨w, memory, h, Nat.le_refl _, Nat.le_add_right _ _, fun _ _ => rfl⟩

theorem GrownFrom.mono (h : GrownFrom n P w memory) (hPQ : ∀ w memory, P w memory → Q w memory) (hn : n ≤ m) :
    GrownFrom m Q w memory := by
  obtain ⟨w₀, memory₀, hP, hle, hgrown, hbelow⟩ := h
  exact ⟨w₀, memory₀, hPQ _ _ hP, hle, by omega, hbelow⟩

theorem GrownFrom.trans (h : GrownFrom m (GrownFrom n P) w memory) : GrownFrom (n + m) P w memory := by
  obtain ⟨w₁, memory₁, ⟨w₀, memory₀, hP, hle, hgrown, hbelow⟩, hle', hgrown', hbelow'⟩ := h
  exact ⟨w₀, memory₀, hP, by omega, by omega, fun a ha => (hbelow' a (by omega)).trans (hbelow a ha)⟩

end GrownFrom

namespace Heap

variable {H H' : Heap} {n m : Nat}

def grown (H : Heap) (n : Nat) : Heap where
  place := H.place
  holds w memory := GrownFrom n H.holds w memory ∧ w.toNat % 4 = 0
  stands w memory kind a v := GrownFrom n (fun w memory => H.stands w memory kind a v) w memory

theorem grown_within (h : H.Within H') (hn : n ≤ m) : (H.grown n).Within (H'.grown m) where
  place := h.place
  holds _ _ hheap := ⟨hheap.1.mono h.holds hn, hheap.2⟩
  stands _ _ kind a v hv := hv.mono (fun w memory => h.stands w memory kind a v) hn

theorem grown_grown : ((H.grown n).grown m).Within (H.grown (n + m)) where
  place _ ha := ha
  holds _ _ hheap := ⟨(hheap.1.mono (fun _ _ h => h.1) (Nat.le_refl m)).trans, hheap.2⟩
  stands _ _ _ _ _ hv := hv.trans

end Heap

structure TextIn (place : Word → Prop) (memory : Word → BitVec 8) (w a : Word) (t : String) : Prop where
  stored : BytesAt memory a (bytes t ++ [0])
  ended : '\x00' ∉ t.toList
  below : a.toNat + (bytes t).length < w.toNat
  placed : ∀ i ≤ (bytes t).length, place (a + .ofNat 32 i)

theorem TextIn.grown {place place' : Word → Prop} {memory memory' : Word → BitVec 8} {w w' a : Word} {t : String}
    (h : TextIn place memory w a t) (hplace : ∀ a, place a → place' a) (hle : w.toNat ≤ w'.toNat)
    (hmemory : ∀ a : Word, a.toNat < w.toNat → memory' a = memory a) : TextIn place' memory' w' a t where
  stored := by
    have hbelow := h.below
    apply h.stored.congr
    intro i hi
    rw [List.length_append, List.length_singleton] at hi
    apply hmemory
    bv_omega
  ended := h.ended
  below := Nat.lt_of_lt_of_le h.below hle
  placed i hi := hplace _ (h.placed i hi)

namespace Workspace

variable {p : Workspace} {n m k k' : Nat} {a w w' : Word} {core core' : Core} {f : Frame} {kept : Nat → Word}
  {s : State}
  {t : String} {memory : Word → BitVec 8} {heap : Heap} {rd : Register} {P : Word → (Word → BitVec 8) → Prop}

/--
The heap has space for a number of bytes below the stack. What is to be kept lies below the pointer to the heap or above
the stack, which is in the lower half of the memory. The words that stand for strings are the addresses of their texts.
-/
structure Clear (p : Workspace) (n : Nat) : Prop where
  half : p.base.toNat ≤ 2 ^ 31
  aligned : ∀ w memory, p.heap.holds w memory → w.toNat % 4 = 0
  room : ∀ w memory, p.heap.holds w memory → w.toNat + n + 4 * p.limit ≤ p.base.toNat
  spares : ∀ w memory a, p.heap.holds w memory → p.Spares a → a.toNat < w.toNat ∨ p.base.toNat ≤ a.toNat
  regions : ∀ w memory m r a, p.heap.holds w memory → p.regions m = some r → r.Covers a → a.toNat < w.toNat
  places : ∀ m r a, p.regions m = some r → r.Covers a → ¬p.heap.place a
  fresh : ∀ w memory a, p.heap.holds w memory → w.toNat ≤ a.toNat → a.toNat < w.toNat + n → p.heap.place a
  texts : ∀ w memory a v, p.heap.stands w memory .string a v ↔ ∃ t, v = .text t ∧ TextIn p.heap.place memory w a t

def having (p : Workspace) (a : Word) (t : String) : Heap where
  place := p.heap.place
  holds w memory := p.heap.holds w memory ∧ TextIn p.heap.place memory w a t
  stands := p.heap.stands

theorem having_within : (p.having a t).Within p.heap :=
  ⟨fun _ h => h, fun _ _ h => h.1, fun _ _ _ _ _ h => h⟩

theorem having_within_having (h : p.heap.Within heap) : (p.having a t).Within ((p.withHeap heap).having a t) :=
  ⟨h.place, fun w memory hw => ⟨h.holds w memory hw.1, hw.2.grown h.place (Nat.le_refl _) fun _ _ => rfl⟩, h.stands⟩

namespace Clear

theorem grown (h : p.Clear (n + m)) : (p.withHeap (p.heap.grown n)).Clear m where
  half := h.half
  aligned _ _ hheap := hheap.2
  room _ _ := fun ⟨⟨w₀, memory₀, hheap, hle, hgrown, _⟩, _⟩ => by
    have hroom := h.room _ _ hheap
    change _ + m + 4 * p.limit ≤ p.base.toNat
    omega
  spares _ _ a := fun ⟨⟨w₀, memory₀, hheap, hle, _⟩, _⟩ ha =>
    (h.spares _ _ a hheap ⟨ha.spared, ha.stack, ha.regions⟩).imp_left fun hlt => by omega
  regions _ _ m r a := fun ⟨⟨w₀, memory₀, hheap, hle, _⟩, _⟩ hr ha => by
    have hlt := h.regions _ _ m r a hheap hr ha
    omega
  places := h.places
  fresh _ _ a := fun ⟨⟨w₀, memory₀, hheap, hle, hgrown, _⟩, _⟩ hlow hhigh =>
    h.fresh _ _ a hheap (by omega) (by omega)
  texts w memory a v := by
    constructor
    · rintro ⟨w₀, memory₀, hv, hle, -, hbelow⟩
      obtain ⟨t, ht, htext⟩ := (h.texts w₀ memory₀ a v).mp hv
      exact ⟨t, ht, htext.grown (fun _ h => h) hle hbelow⟩
    · exact fun ht => .of ((h.texts w memory a v).mpr ht)

theorem having (h : p.Clear n) : (p.withHeap (p.having a t)).Clear n where
  half := h.half
  aligned _ _ hheap := h.aligned _ _ hheap.1
  room _ _ hheap := h.room _ _ hheap.1
  spares _ _ a hheap ha := h.spares _ _ a hheap.1 ⟨ha.spared, ha.stack, ha.regions⟩
  regions _ _ m r a hheap := h.regions _ _ m r a hheap.1
  places := h.places
  fresh _ _ a hheap := h.fresh _ _ a hheap.1
  texts := h.texts

theorem mono (h : p.Clear n) (hm : m ≤ n) : p.Clear m where
  half := h.half
  aligned := h.aligned
  room w memory hheap := by
    have hroom := h.room w memory hheap
    omega
  spares := h.spares
  regions := h.regions
  places := h.places
  fresh w memory a hheap hlow hhigh := h.fresh w memory a hheap hlow (by omega)
  texts := h.texts

theorem relisted {lines : List Line} {start : Hart} (h : p.Clear n) (hlinked : Linked p.layout lines) :
    (p.relisted hlinked start).Clear n where
  half := h.half
  aligned := h.aligned
  room := h.room
  spares w memory a hheap ha := h.spares w memory a hheap ⟨ha.spared, ha.stack, ha.regions⟩
  regions := h.regions
  places := h.places
  fresh := h.fresh
  texts := h.texts

theorem within_grown (h : p.Clear n) : p.heap.Within (p.heap.grown m) where
  place _ ha := ha
  holds w memory hheap := ⟨.of hheap, h.aligned w memory hheap⟩
  stands _ _ _ _ _ hv := .of hv

theorem le_of_inStack (h : p.Clear n) (hheap : p.heap.holds w memory) (ha : InStack p.base p.limit a) :
    w.toNat + n ≤ a.toNat := by
  have hroom := h.room w memory hheap
  unfold InStack at ha
  bv_omega

theorem outside_of_textIn (h : p.Clear n) (hheap : p.heap.holds w memory) {memory' : Word → BitVec 8}
    (ht : TextIn p.heap.place memory' w a t) {i : Nat} (hi : i ≤ (bytes t).length) : p.Outside (a + .ofNat 32 i) := by
  refine ⟨fun hstack => ?_, fun m r hr hcovers => h.places m r _ hr hcovers (ht.placed i hi)⟩
  have hle := h.le_of_inStack hheap hstack
  have hbelow := ht.below
  bv_omega

end Clear

/-! What the machine holds while the heap grows -/

/--
Only bytes from the pointer to the heap up to where it is now changed, and the pointer moved by at most a number of
bytes.
-/
structure Grows (n : Nat) (core core' : Core) : Prop where
  sp : core'.get .sp = core.get .sp
  le : (core.get .hp).toNat ≤ (core'.get .hp).toNat
  grown : (core'.get .hp).toNat ≤ (core.get .hp).toNat + n
  aligned : (core'.get .hp).toNat % 4 = 0
  memory : ∀ a : Word, a.toNat < (core.get .hp).toNat ∨ (core'.get .hp).toNat ≤ a.toNat → core'.memory a = core.memory a

theorem Grows.loadWord_eq (h : Grows n core core') {P : Word → Prop} (ha : CoversWord P a)
    (hP : ∀ x : Word, P x → x.toNat < (core.get .hp).toNat ∨ (core'.get .hp).toNat ≤ x.toNat) :
    core'.loadWord a = core.loadWord a := by
  apply Core.loadWord_of_bytes
  intro x hx
  obtain ⟨j, hj, rfl⟩ := exists_add_of_sub_lt hx
  exact h.memory _ (hP _ (ha j hj))

theorem Grows.loadWord_slotAt (h : Grows n core core') (hclear : p.Clear n)
    (hheap : p.heap.holds (core.get .hp) memory) {i : Nat} (hi : i < p.limit) :
    core'.loadWord (slotAt p.base i) = core.loadWord (slotAt p.base i) := by
  apply h.loadWord_eq (coversWord_slotAt hi p.room)
  intro x hx
  have hstack := hclear.le_of_inStack hheap hx
  have hgrown := h.grown
  omega

theorem Grows.loadWord_region (h : Grows n core core') (hclear : p.Clear n)
    (hheap : p.heap.holds (core.get .hp) memory) {i : Nat} {r : Region} (hr : p.regions i = some r)
    (ha : CoversWord r.Covers a) : core'.loadWord a = core.loadWord a :=
  h.loadWord_eq ha fun x hx => .inl (hclear.regions _ _ i r x hheap hr hx)

theorem Beside.grown (h : p.Beside core P) (hgrows : Grows n core core') : p.Beside core' (GrownFrom n P) := by
  obtain ⟨memory, hP, hbytes⟩ := h
  refine ⟨fun a => if a.toNat < (core.get .hp).toNat then memory a else core'.memory a,
    ⟨core.get .hp, memory, hP, hgrows.le, hgrows.grown, fun a ha => if_pos ha⟩, fun a ha => ?_⟩
  dsimp only
  split
  · next hlt => exact (hgrows.memory a (.inl hlt)).trans (hbytes a ha)
  · rfl

theorem Variable.grown {i : Nat} {slot : Slot} {b : Binding} (hb : p.Variable core i slot b)
    (hclear : p.Clear n) (hheap : p.heap.holds (core.get .hp) memory) (h : Grows n core core') :
    (p.withHeap (p.heap.grown n)).Variable core' i slot b := by
  have hslot : core'.loadWord (slotAt p.base i) = core.loadWord (slotAt p.base i) :=
    h.loadWord_slotAt hclear hheap hb.lt
  constructor
  case lt => exact hb.lt
  case kind => exact hb.kind
  case cell =>
    intro scalar hscalar hcell
    obtain ⟨hvalue, hword⟩ := hb.cell scalar hscalar hcell
    exact ⟨hvalue, hslot.trans hword⟩
  case array =>
    intro elem helem hcell
    obtain ⟨r, items, hr, haddress, hvalue, hitems⟩ := hb.array elem helem hcell
    have hfits := p.fits hr
    refine ⟨r, items, hr, hslot.trans haddress, hvalue, hitems.length, ?_, hitems.cells, fun j v hv => ?_⟩
    · rw [h.loadWord_region hclear hheap hr hfits.coversWord_header, hitems.header]
    · rw [h.loadWord_region hclear hheap hr (hfits.coversWord_element (hitems.lt_of_getElem? hv)), hitems.words j v hv]
  case other =>
    intro scalar hscalar hother
    have hstands := hb.other scalar hscalar hother
    rw [← hslot] at hstands
    exact Beside.grown hstands h

namespace Holds

theorem grown (h : p.Holds f kept s core) (hclear : p.Clear n) (hgrows : Grows n core core') :
    (p.withHeap (p.heap.grown n)).Holds f kept s core' := by
  obtain ⟨memory, hheap, -⟩ := h.heap
  constructor
  case le => exact h.le
  case sp => exact hgrows.sp.trans h.sp
  case bound => exact h.bound.mono (fun _ _ _ _ hb => hb.grown hclear hheap hgrows) fun _ _ h => h
  case kept =>
    intro i hi hother
    have hword := hgrows.loadWord_slotAt hclear hheap (Nat.lt_of_lt_of_le hi h.le)
    exact hword.trans (h.kept i hi hother)
  case memory =>
    intro a ha
    have hspares : p.Spares a := ⟨ha.spared, ha.stack, ha.regions⟩
    have hwhere := hclear.spares _ _ a hheap hspares
    have hroom := hclear.room _ _ hheap
    have hgrown := hgrows.grown
    exact (hgrows.memory a (by omega)).trans (h.memory a hspares)
  case heap =>
    obtain ⟨memory', hheap', hbytes⟩ := h.heap.grown hgrows
    exact ⟨memory', ⟨hheap', hgrows.aligned⟩, hbytes⟩

theorem having (h : p.Holds f kept s core) (hclear : p.Clear n)
    (ht : TextIn p.heap.place core.memory (core.get .hp) a t) :
    (p.withHeap (p.having a t)).Holds f kept s core := by
  obtain ⟨memory, hheap, hbytes⟩ := h.heap
  have hmemory : TextIn p.heap.place memory (core.get .hp) a t := by
    refine ⟨ht.stored.congr fun i hi => ?_, ht.ended, ht.below, ht.placed⟩
    rw [List.length_append, List.length_singleton] at hi
    exact (hbytes _ (hclear.outside_of_textIn hheap ht (by omega))).symm
  exact h.moved rfl rfl rfl (fun a ha => h.memory a ⟨ha.spared, ha.stack, ha.regions⟩)
    ⟨memory, ⟨hheap, hmemory⟩, hbytes⟩ fun _ _ _ hv => hv

theorem textIn (h : p.Holds f kept s core) (hclear : p.Clear n)
    (ht : p.Beside core fun w memory => TextIn p.heap.place memory w a t) :
    TextIn p.heap.place core.memory (core.get .hp) a t := by
  obtain ⟨_, hheap, -⟩ := h.heap
  obtain ⟨memory, htext, hbytes⟩ := ht
  refine ⟨htext.stored.congr fun i hi => ?_, htext.ended, htext.below, htext.placed⟩
  rw [List.length_append, List.length_singleton] at hi
  exact hbytes _ (hclear.outside_of_textIn hheap htext (by omega))

theorem textAt (h : p.Holds f kept s core) (hclear : p.Clear n)
    (ht : p.Beside core fun w memory => TextIn p.heap.place memory w a t) : TextAt core a t :=
  ⟨(h.textIn hclear ht).stored, (h.textIn hclear ht).ended, (h.textIn hclear ht).below⟩

theorem space (h : p.Holds f kept s core) (hclear : p.Clear n) :
    (core.get .hp).toNat % 4 = 0 ∧ (core.get .hp).toNat + n ≤ 2 ^ 31 := by
  obtain ⟨memory, hheap, -⟩ := h.heap
  have hroom := hclear.room _ _ hheap
  have hhalf := hclear.half
  exact ⟨hclear.aligned _ _ hheap, by omega⟩

theorem onlySets {rs : List Register} (h : p.Holds f kept s core) (hsets : OnlySets rs core core') (hsp : .sp ∉ rs)
    (hhp : .hp ∉ rs) : p.Holds f kept s core' :=
  h.congr hsets.memory (hsets.registers _ hsp) (hsets.registers _ hhp)

theorem written (h : p.Holds f kept s core) (hclear : p.Clear n) (hnew : NewText core core' t) (hsize : textSize t ≤ n)
    (habove : ∀ a : Word, (core'.get .hp).toNat ≤ a.toNat → core'.memory a = core.memory a)
    (hsp : core'.get .sp = core.get .sp) :
    (p.withHeap ((p.withHeap (p.heap.grown n)).having (core.get .hp) t)).Holds f kept s core' := by
  obtain ⟨memory, hheap, -⟩ := h.heap
  have hpointer := hnew.pointer
  have hbelow := hnew.text.below
  have hgrows : Grows n core core' :=
    ⟨hsp, by omega, by omega, hnew.aligned, fun a ha => ha.elim (hnew.below a) (habove a)⟩
  -- The text is empty below the stack, so this is also known where nothing is left of the space.
  have hspent : (p.withHeap (p.heap.grown n)).Clear 0 := Clear.grown (m := 0) hclear
  refine (h.grown hclear hgrows).having hspent ⟨hnew.text.stored, hnew.text.ended, hnew.text.below, ?_⟩
  intro i hi
  have hroom := hclear.room _ _ hheap
  have hhalf := hclear.half
  unfold textSize at hsize
  apply hclear.fresh _ _ _ hheap <;> bv_omega

theorem textOf {name : String} {offset : Int} {slot : Slot} (h : p.Holds f kept s core) (hclear : p.Clear n)
    (hname : Plain name) (hslot : f.resolve? name = some (offset, slot)) (hkind : slot.kind = .string) :
    ∃ t, s.env.get name = .ok ⟨.scalar .string, .text t⟩ ∧ TextIn p.heap.place core.memory (core.get .hp)
      (core.loadWord (core.get .sp + .ofInt 32 offset)) t := by
  obtain ⟨i, ⟨kind, value⟩, hfound, -, hplace⟩ := h.found hname hslot
  have hb := hfound.holds.kind
  rw [hkind] at hb
  cases hb
  obtain ⟨memory, hstands, hbytes⟩ := hfound.holds.other .string (.inl hkind) rfl
  rw [hkind] at hstands
  obtain ⟨t, rfl, htext⟩ := (hclear.texts _ _ _ _).mp hstands
  rw [hplace]
  exact ⟨t, hfound.get, h.textIn hclear ⟨memory, htext, hbytes⟩⟩

theorem storedText {name : String} {offset : Int} {slot : Slot} (h : p.Holds f kept s core) (hclear : p.Clear n)
    (hname : Plain name) (hslot : f.resolve? name = some (offset, slot)) (hkind : slot.kind = .string)
    (ht : TextIn p.heap.place core.memory (core.get .hp) a t) :
    ∃ env, s.env.set name (.text t) = .ok env ∧
      p.Holds f kept { s with env } (core.storeWord (core.get .sp + .ofInt 32 offset) a) := by
  apply h.storedWord hname hslot
  intro i b hb
  refine ⟨hb.lt, hb.kind, fun scalar hscalar hcell => ?_, fun elem helem => ?_, fun scalar hscalar _ => ?_⟩
  · cases hkind.symm.trans hscalar
    cases hcell
  · cases hkind.symm.trans helem
  · rw [hkind, Core.loadWord_storeWord]
    have hstands : p.Stands core .string a (.text t) := by
      exact ⟨core.memory, (hclear.texts _ _ _ _).mpr ⟨t, rfl, ht⟩, fun _ _ => rfl⟩
    exact Beside.congr hstands Core.get_storeWord fun x hx =>
      Core.memory_storeWord ((coversWord_slotAt hb.lt p.room).le_sub hx.1)

end Holds

end Workspace

end Arbor.Machine
