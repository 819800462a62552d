import Arbor.Proofs.Evaluation.Triple
import Arbor.Proofs.Lowering.Closed
import Arbor.Proofs.Lowering.StatementCode
import Arbor.Proofs.Machine.Loading
import Arbor.Proofs.Machine.Region

/-!
This module contains the code that fills the region of an array, with one word or with the elements of another array.
It does the same whether it goes word by word or in a loop, so that it does not matter up to which length the code is
without a loop.
-/

namespace Arbor.Machine

open Assembly
open Lowering (Frame Slot ArrayCode intLiteral? labelCount unrolledFill fillLoop unrolledCopy copyLoop upToCode
  regionCode
  loadZero lowerStmt)

/-! Filled regions -/

inductive Filler where
  | word (w : Word)
  | elements (source : Region)

namespace Filler

def wordAt (x : Filler) (core : Core) (i : Nat) : Word :=
  match x with
  | .word w => w
  | .elements source => core.loadWord (source.element i)

def InRegister (x : Filler) (core : Core) : Prop :=
  match x with
  | .word w => core.get .t1 = w
  | .elements source => core.get .t1 = source.address

def Apart (x : Filler) (r : Region) : Prop :=
  match x with
  | .word _ => True
  | .elements source => source.Fits ∧ source.length = r.length ∧ source.Apart r

def unrolled : Filler → Nat → List Line
  | .word _ => unrolledFill
  | .elements _ => unrolledCopy

def loop : Filler → Label → Label → List Line
  | .word _ => fillLoop
  | .elements _ => copyLoop

theorem wordAt_congr {x : Filler} {core core' : Core} (h : core'.memory = core.memory) (i : Nat) :
    x.wordAt core' i = x.wordAt core i := by
  cases x with
  | word w => rfl
  | elements source => simp only [wordAt, Core.loadWord, h]

end Filler

namespace Core

def filled (core : Core) (r : Region) (x : Filler) : Nat → Core
  | 0 => core
  | n + 1 => (core.filled r x n).storeWord (r.element n) (x.wordAt (core.filled r x n) n)

variable {core core' : Core} {r : Region} {x : Filler} {n i : Nat} {a w : Word}

theorem memory_storeWord_congr (h : core'.memory = core.memory) :
    (core'.storeWord a w).memory = (core.storeWord a w).memory := by
  simp only [storeWord, storeByte, h]

theorem memory_filled_congr (h : core'.memory = core.memory) (n : Nat) :
    (core'.filled r x n).memory = (core.filled r x n).memory := by
  induction n with
  | zero => exact h
  | succ n ih =>
    rw [filled, filled, Filler.wordAt_congr ih]
    exact memory_storeWord_congr ih

theorem get_filled {rd : Register} : (core.filled r x n).get rd = core.get rd := by
  induction n with
  | zero => rfl
  | succ n ih => rw [filled, get_storeWord, ih]

theorem memory_filled (h : ∀ i < n, 4 ≤ a - r.element i) : (core.filled r x n).memory a = core.memory a := by
  induction n with
  | zero => rfl
  | succ n ih =>
    rw [filled, memory_storeWord (h n (Nat.lt_succ_self n))]
    exact ih fun i hi => h i (Nat.lt_succ_of_lt hi)

theorem loadWord_filled_of_apart {P : Word → Prop} (hr : r.Fits) (hn : n ≤ r.length) (ha : CoversWord P a)
    (hapart : ∀ b, r.Covers b → ¬P b) : (core.filled r x n).loadWord a = core.loadWord a := by
  induction n with
  | zero => rfl
  | succ n ih =>
    rw [filled, (hr.coversWord_element hn).loadWord_storeWord ha hapart]
    exact ih (Nat.le_of_succ_le hn)

theorem loadWord_filled_header (hr : r.Fits) (hn : n ≤ r.length) :
    (core.filled r x n).loadWord r.header = core.loadWord r.header := by
  induction n with
  | zero => rfl
  | succ n ih =>
    rw [filled, hr.loadWord_header hn]
    exact ih (Nat.le_of_succ_le hn)

theorem wordAt_filled (hr : r.Fits) (hx : x.Apart r) (hn : n ≤ r.length) (hi : i < r.length) :
    x.wordAt (core.filled r x n) i = x.wordAt core i := by
  cases x with
  | word w => rfl
  | elements source =>
    obtain ⟨hsource, hlength, hapart⟩ := hx
    exact loadWord_filled_of_apart hr hn (hsource.coversWord_element (hlength ▸ hi)) hapart.symm

theorem loadWord_filled (hr : r.Fits) (hx : x.Apart r) (hn : n ≤ r.length) (hi : i < n) :
    (core.filled r x n).loadWord (r.element i) = x.wordAt core i := by
  induction n with
  | zero => exact absurd hi (Nat.not_lt_zero i)
  | succ n ih =>
    rw [filled]
    rcases Nat.lt_succ_iff_lt_or_eq.mp hi with hlt | rfl
    · rw [hr.loadWord_element hn (Nat.lt_of_lt_of_le hi hn) (Nat.ne_of_gt hlt)]
      exact ih (Nat.le_of_succ_le hn) hlt
    · rw [loadWord_storeWord, wordAt_filled hr hx (Nat.le_of_succ_le hn) hn]

end Core

/-! Code that fills a region -/

def fillRegisters : List Register := [.t2, .t3, .t4, .t5]

structure Filled (core : Core) (r : Region) (x : Filler) (n : Nat) (core' : Core) : Prop where
  memory : core'.memory = (core.filled r x n).memory
  output : core'.output = core.output
  registers : ∀ rd, rd ∉ fillRegisters → core'.get rd = core.get rd

section Code

variable {L : Layout} {lines : List Line} {start : Hart} {core core' : Core} {r : Region} {x : Filler}
  {n i k k' : Nat} {rd : Register} {w : Word} {top last : Label}

namespace Filled

theorem begin (core : Core) (r : Region) (x : Filler) : Filled core r x 0 core :=
  ⟨rfl, rfl, fun _ _ => rfl⟩

theorem set (h : Filled core r x n core') (hrd : rd ∈ fillRegisters) : Filled core r x n (core'.set rd w) where
  memory := h.memory
  output := h.output
  registers rd' hrd' := by
    have hne : rd' ≠ rd := fun heq => hrd' (heq ▸ hrd)
    rw [Core.get_set_of_ne hne, h.registers rd' hrd']

theorem store (h : Filled core r x n core') (hw : x.wordAt core' n = w) :
    Filled core r x (n + 1) (core'.storeWord (r.element n) w) where
  memory := by
    rw [Core.filled, ← hw, Filler.wordAt_congr h.memory]
    exact Core.memory_storeWord_congr h.memory
  output := h.output
  registers rd hrd := by rw [Core.get_storeWord, h.registers rd hrd]

theorem address (h : Filled core r x n core') (ht₀ : core.get .t0 = r.address) : core'.get .t0 = r.address := by
  rw [h.registers .t0 (by decide), ht₀]

theorem inRegister (h : Filled core r x n core') (hx : x.InRegister core) : x.InRegister core' := by
  cases x with
  | word | elements => exact (h.registers .t1 (by decide)).trans hx

end Filled

theorem filled_unrolled (ht₀ : core.get .t0 = r.address) (hx : x.InRegister core)
    (hg : Reaches L lines start ⟨core, k⟩) (hc : CodeAt lines k (x.unrolled n) k') :
    ∃ core', Reaches L lines start ⟨core', k'⟩ ∧ Filled core r x n core' := by
  induction n generalizing k' with
  | zero =>
    have hnil : x.unrolled 0 = [] := by cases x <;> rfl
    rw [hnil] at hc
    cases hc
    exact ⟨core, hg, .begin core r x⟩
  | succ n ih =>
    cases x with
    | word w =>
      rw [Filler.unrolled, unrolledFill, List.range_succ, List.map_append, codeAt_append] at hc
      obtain ⟨m, hbefore, hlast⟩ := hc
      obtain ⟨core', hg', h⟩ := ih hbefore
      have hword : core'.get .t1 = w := h.inRegister hx
      refine ⟨_, Reaches.straight hlast ?_ hg', h.store rfl⟩
      simp [runLine, effect, h.address ht₀, hword, Region.address_add, Filler.wordAt]
    | elements source =>
      rw [Filler.unrolled, unrolledCopy, List.range_succ, List.flatMap_append, codeAt_append] at hc
      obtain ⟨m, hbefore, hlast⟩ := hc
      obtain ⟨core', hg', h⟩ := ih hbefore
      have hfrom : core'.get .t1 = source.address := h.inRegister hx
      have hloaded : Filled core r (.elements source) n (core'.set .t2 (core'.loadWord (source.element n))) :=
        h.set (by decide)
      refine ⟨_, Reaches.straight hlast ?_ hg', hloaded.store rfl⟩
      simp [runLine, effect, h.address ht₀, hfrom, Region.address_add, Core.get_set, Core.get_set_of_ne,
        Core.loadWord_set, Filler.wordAt]

theorem Reaches.counted {Inv : Nat → Core → Prop} {m : Nat} (hunique : ∀ l, labelCount l lines ≤ 1)
    (htop : lines[k]? = some (.label top)) (htest : lines[k + 1]? = some (.bge .t4 .t2 last))
    (hagain : lines[m]? = some (.j top)) (hlast : lines[m + 1]? = some (.label last)) (hn : n < 2 ^ 31)
    (hcount : ∀ i core, Inv i core → core.get .t4 = .ofNat 32 i ∧ core.get .t2 = .ofNat 32 n)
    (hround : ∀ i core, i < n → Inv i core → Reaches L lines start ⟨core, k + 2⟩ →
      ∃ core', Reaches L lines start ⟨core', m⟩ ∧ Inv (i + 1) core')
    (h : Inv i core) (hi : i ≤ n) (hg : Reaches L lines start ⟨core, k⟩) :
    ∃ core', Reaches L lines start ⟨core', m + 2⟩ ∧ Inv n core' := by
  obtain ⟨left, rfl⟩ := Nat.exists_eq_add_of_le hi
  induction left generalizing i core with
  | zero =>
    have hdone := (hg.label htop).branch htest hlast (hunique last)
    rw [(hcount i core h).1, (hcount i core h).2, branchTaken, slt_ofNat hi hn] at hdone
    simp only [Nat.add_zero, Nat.lt_irrefl, decide_false, Bool.not_false, if_true] at hdone
    exact ⟨core, hdone.label hlast, h⟩
  | succ left ih =>
    have hlt : i < i + (left + 1) := by omega
    have hgo := (hg.label htop).branch htest hlast (hunique last)
    rw [(hcount i core h).1, (hcount i core h).2, branchTaken, slt_ofNat hi hn] at hgo
    simp only [hlt, decide_true, Bool.not_true, Bool.false_eq_true, if_false] at hgo
    obtain ⟨core', hg', h'⟩ := hround i core hlt h hgo
    have hsum : i + 1 + left = i + (left + 1) := by omega
    rw [← hsum] at hn hcount hround ⊢
    exact ih h' (hg'.jump hagain htop (hunique top)) hn hcount hround (by omega)

theorem ofNat_succ (i : Nat) : BitVec.ofNat 32 i + BitVec.ofNat 32 1 = .ofNat 32 (i + 1) :=
  (BitVec.ofNat_add i 1).symm

theorem filled_fillLoop (hunique : ∀ l, labelCount l lines ≤ 1) (hn : n < 2 ^ 31) (ht₀ : core.get .t0 = r.address)
    (ht₁ : core.get .t1 = w) (h : Filled core r (.word w) 0 core') (ht₂ : core'.get .t2 = .ofNat 32 n)
    (hg : Reaches L lines start ⟨core', k⟩) (hc : CodeAt lines k (fillLoop top last) k') :
    ∃ core', Reaches L lines start ⟨core', k'⟩ ∧ Filled core r (.word w) n core' := by
  simp only [fillLoop, codeAt_instruction, codeAt_label, codeAt_nil] at hc
  obtain ⟨hmv, hli, htop, htest, hsw, haddi₃, haddi₄, hagain, hlast, rfl⟩ := hc
  let Inv (i : Nat) (c : Core) : Prop :=
    (c.get .t4 = .ofNat 32 i ∧ c.get .t2 = .ofNat 32 n) ∧ c.get .t3 = r.element i ∧ Filled core r (.word w) i c
  have hbegun : Inv 0 ((core'.set .t3 r.address).set .t4 0) := by
    refine ⟨⟨Core.get_set (by decide), ?_⟩, ?_, (h.set (by decide)).set (by decide)⟩
    · rw [Core.get_set_of_ne (by decide), Core.get_set_of_ne (by decide), ht₂]
    · rw [Core.get_set_of_ne (by decide), Core.get_set (by decide), Region.element_zero]
  have hg₁ : Reaches L lines start ⟨(core'.set .t3 r.address).set .t4 0, k + 2⟩ := by
    apply (hg.step (step_instruction hmv rfl)).step (step_instruction hli _)
    simp [effect, moveOp, h.address ht₀]
  have hround : ∀ i c, i < n → Inv i c → Reaches L lines start ⟨c, k + 2 + 2⟩ →
      ∃ c', Reaches L lines start ⟨c', k + 2 + 5⟩ ∧ Inv (i + 1) c' := by
    rintro i c hi ⟨⟨ht₄, ht₂⟩, ht₃, hc⟩ hg
    have hword : c.get .t1 = w := (hc.registers .t1 (by decide)).trans ht₁
    let c' := ((c.storeWord (r.element i) w).set .t3 (r.element (i + 1))).set .t4 (.ofNat 32 (i + 1))
    have hround : CodeAt lines (k + 2 + 2) [.sw .t1 0 .t3, .addi .t3 .t3 wordBytes, .addi .t4 .t4 1] (k + 2 + 5) := by
      simp only [codeAt_instruction, codeAt_nil]
      exact ⟨hsw, haddi₃, haddi₄, trivial⟩
    refine ⟨c', Reaches.straight hround ?_ hg, ⟨Core.get_set (by decide), ?_⟩, ?_,
      ((hc.store rfl).set (by decide)).set (by decide)⟩
    · simp [runLine, effect, immediateOp, Core.get_storeWord, Core.get_set_of_ne, hword, ht₃, ht₄, Region.element_add,
        ofNat_succ, c']
    · rw [Core.get_set_of_ne (by decide), Core.get_set_of_ne (by decide), Core.get_storeWord, ht₂]
    · rw [Core.get_set_of_ne (by decide), Core.get_set (by decide)]
  obtain ⟨core'', hg'', -, -, h''⟩ :=
    Reaches.counted hunique htop htest hagain hlast hn (fun _ _ h => h.1) hround hbegun (Nat.zero_le n) hg₁
  exact ⟨core'', hg'', h''⟩

theorem filled_copyLoop {source : Region} (hunique : ∀ l, labelCount l lines ≤ 1) (hn : n < 2 ^ 31)
    (ht₀ : core.get .t0 = r.address) (ht₁ : core.get .t1 = source.address)
    (h : Filled core r (.elements source) 0 core')
    (ht₂ : core'.get .t2 = .ofNat 32 n) (hg : Reaches L lines start ⟨core', k⟩)
    (hc : CodeAt lines k (copyLoop top last) k') :
    ∃ core', Reaches L lines start ⟨core', k'⟩ ∧ Filled core r (.elements source) n core' := by
  simp only [copyLoop, codeAt_instruction, codeAt_label, codeAt_nil] at hc
  obtain ⟨hli, htop, htest, hslli, hadd, hlw, hadd', hsw, haddi, hagain, hlast, rfl⟩ := hc
  let Inv (i : Nat) (c : Core) : Prop :=
    (c.get .t4 = .ofNat 32 i ∧ c.get .t2 = .ofNat 32 n) ∧ Filled core r (.elements source) i c
  have hbegun : Inv 0 (core'.set .t4 0) := by
    refine ⟨⟨Core.get_set (by decide), ?_⟩, h.set (by decide)⟩
    rw [Core.get_set_of_ne (by decide), ht₂]
  have hg₁ : Reaches L lines start ⟨core'.set .t4 0, k + 1⟩ := hg.step (step_instruction hli rfl)
  have hround : ∀ i c, i < n → Inv i c → Reaches L lines start ⟨c, k + 1 + 2⟩ →
      ∃ c', Reaches L lines start ⟨c', k + 1 + 8⟩ ∧ Inv (i + 1) c' := by
    rintro i c hi ⟨⟨ht₄, ht₂⟩, hc⟩ hg
    have hfrom : source.address + BitVec.ofNat 32 i <<< 2 = source.element i := source.address_add_shift i
    have hto : r.address + BitVec.ofNat 32 i <<< 2 = r.element i := r.address_add_shift i
    have hword : c.get .t1 = source.address := (hc.registers .t1 (by decide)).trans ht₁
    let c₁ := ((c.set .t3 (BitVec.ofNat 32 i <<< 2)).set .t5 (c.loadWord (source.element i))).set .t3 (r.element i)
    let c₂ := (c₁.storeWord (r.element i) (c.loadWord (source.element i))).set .t4 (.ofNat 32 (i + 1))
    have hround : CodeAt lines (k + 1 + 2) [.slli .t3 .t4 2, .add .t5 .t1 .t3, .lw .t5 0 .t5, .add .t3 .t0 .t3,
        .sw .t5 0 .t3, .addi .t4 .t4 1] (k + 1 + 8) := by
      simp only [codeAt_instruction, codeAt_nil]
      exact ⟨hslli, hadd, hlw, hadd', hsw, haddi, trivial⟩
    have hloaded : Filled core r (.elements source) i c₁ :=
      ((hc.set (by decide)).set (by decide)).set (by decide)
    refine ⟨c₂, Reaches.straight hround ?_ hg, ⟨Core.get_set (by decide), ?_⟩, (hloaded.store rfl).set (by decide)⟩
    · simp [runLine, effect, immediateOp, registerOp, Core.get_set, Core.get_set_of_ne, Core.get_storeWord,
        Core.set_set, Core.loadWord_set, hword, ht₄, hc.address ht₀, hfrom, hto, ofNat_succ, c₁, c₂]
    · rw [Core.get_set_of_ne (by decide), Core.get_storeWord, Core.get_set_of_ne (by decide),
        Core.get_set_of_ne (by decide), Core.get_set_of_ne (by decide), ht₂]
  obtain ⟨core'', hg'', -, h''⟩ :=
    Reaches.counted hunique htop htest hagain hlast hn (fun _ _ h => h.1) hround hbegun (Nat.zero_le n) hg₁
  exact ⟨core'', hg'', h''⟩

theorem filled_loop (hunique : ∀ l, labelCount l lines ≤ 1) (hn : n < 2 ^ 31) (ht₀ : core.get .t0 = r.address)
    (hx : x.InRegister core) (h : Filled core r x 0 core') (ht₂ : core'.get .t2 = .ofNat 32 n)
    (hg : Reaches L lines start ⟨core', k⟩) (hc : CodeAt lines k (x.loop top last) k') :
    ∃ core', Reaches L lines start ⟨core', k'⟩ ∧ Filled core r x n core' := by
  cases x with
  | word w => exact filled_fillLoop hunique hn ht₀ hx h ht₂ hg hc
  | elements source => exact filled_copyLoop hunique hn ht₀ hx h ht₂ hg hc

theorem filled_upTo {limit label : Nat} (hunique : ∀ l, labelCount l lines ≤ 1) (hn : n < 2 ^ 31)
    (ht₀ : core.get .t0 = r.address) (hx : x.InRegister core) (hg : Reaches L lines start ⟨core, k⟩)
    (hc : CodeAt lines k (upToCode limit n label x.unrolled x.loop) k') :
    ∃ core', Reaches L lines start ⟨core', k'⟩ ∧ Filled core r x n core' := by
  unfold upToCode at hc
  split at hc
  · exact filled_unrolled ht₀ hx hg hc
  · rw [codeAt_instruction] at hc
    obtain ⟨hli, hloop⟩ := hc
    have ht₂ : BitVec.ofInt 32 (n : Int) = .ofNat 32 n := BitVec.ofInt_natCast 32 n
    refine filled_loop hunique hn ht₀ hx ((Filled.begin core r x).set (by decide)) ?_
      (hg.step (step_instruction hli rfl)) hloop
    rw [Core.get_set (by decide), ht₂]

end Code

/-! Arrays of known length -/

def zeroWord (L : Layout) : Scalar → Word
  | .string => L.data FixedString.emptyText.label
  | _ => 0

/--
What a new array of known length is filled with: with zero values if its length is a literal, and with the elements of
another array if that has the length and the length is in its header.
-/
inductive Known (L : Layout) (f : Frame) (core : Core) : Option Scalar → ArrayInit → Nat → Filler → Prop where
  | sized {elem : Scalar} {length : Expr} {size : Int64} :
    intLiteral? length = some size →
    Known L f core (some elem) (.sized length) size.toInt.toNat (.word (zeroWord L elem))
  | copied {declared : Option Scalar} {source : String} {offset : Int} {slot : Slot} {n : Nat} {r : Region} :
    f.resolve? source = some (offset, slot) → slot.length = some n →
    r.address = core.loadWord (core.get .sp + .ofInt 32 offset) → r.length = n →
    (core.loadWord r.header).toInt = n → Known L f core declared (.copyOf source) n (.elements r)

structure Built (core : Core) (r : Region) (x : Filler) (core' : Core) : Prop where
  memory : core'.memory = ((core.filled r x r.length).storeWord (core.get .sp - 4) r.address).memory
  sp : core'.get .sp = core.get .sp - 4
  registers : ∀ rd, rd ≠ .sp → rd ∉ .t0 :: .t1 :: fillRegisters → core'.get rd = core.get rd
  output : core'.output = core.output

namespace Built

variable {L : Layout} {lines : List Line} {start : Hart} {core core₀ core' : Core} {r : Region} {x : Filler}
  {n k k' : Nat} {a : Word}

theorem pushed (h : Built core r x core') : core'.loadWord (core'.get .sp) = r.address := by
  rw [h.sp, Core.loadWord_congr h.memory, Core.loadWord_storeWord]

theorem untouched (h : Built core r x core') (hsp : 4 ≤ a - core'.get .sp)
    (helements : ∀ i < r.length, 4 ≤ a - r.element i) : core'.memory a = core.memory a := by
  rw [h.sp] at hsp
  rw [h.memory, Core.memory_storeWord hsp, Core.memory_filled helements]

theorem loadWord_of_covers (h : Built core r x core') (hsp : CoversWord (fun b => ¬r.Covers b) (core'.get .sp))
    (ha : CoversWord r.Covers a) : core'.loadWord a = (core.filled r x r.length).loadWord a := by
  rw [h.sp] at hsp
  rw [Core.loadWord_congr h.memory]
  exact hsp.loadWord_storeWord ha fun b hb hb' => hb hb'

theorem element (h : Built core r x core') (hr : r.Fits) (hx : x.Apart r)
    (hsp : CoversWord (fun b => ¬r.Covers b) (core'.get .sp)) {i : Nat} (hi : i < r.length) :
    core'.loadWord (r.element i) = x.wordAt core i := by
  rw [h.loadWord_of_covers hsp (hr.coversWord_element hi), Core.loadWord_filled hr hx (Nat.le_refl _) hi]

theorem header (h : Built core r x core') (hr : r.Fits)
    (hsp : CoversWord (fun b => ¬r.Covers b) (core'.get .sp)) :
    core'.loadWord r.header = core.loadWord r.header := by
  rw [h.loadWord_of_covers hsp hr.coversWord_header, Core.loadWord_filled_header hr (Nat.le_refl _)]

theorem of_upTo {limit label : Nat} (hunique : ∀ l, labelCount l lines ≤ 1) (hn : r.length < 2 ^ 31)
    (hmemory : core₀.memory = core.memory) (houtput : core₀.output = core.output)
    (hregisters : ∀ rd, rd ≠ .t0 → rd ≠ .t1 → core₀.get rd = core.get rd) (ht₀ : core₀.get .t0 = r.address)
    (hx : x.InRegister core₀) (hg : Reaches L lines start ⟨core₀, k⟩)
    (hc : CodeAt lines k (upToCode limit r.length label x.unrolled x.loop ++ push .t0) k') :
    ∃ core', Reaches L lines start ⟨core', k'⟩ ∧ Built core r x core' := by
  obtain ⟨m, hfill, hpush⟩ := codeAt_append.mp hc
  obtain ⟨core₁, hg₁, h₁⟩ := filled_upTo hunique hn ht₀ hx hg hfill
  have hsp : core₁.get .sp = core.get .sp :=
    (h₁.registers .sp (by decide)).trans (hregisters .sp (by decide) (by decide))
  have hfilled : core₁.memory = (core.filled r x r.length).memory :=
    h₁.memory.trans (Core.memory_filled_congr hmemory r.length)
  have hg₂ := hg₁.push (by decide) hpush
  rw [hsp, h₁.address ht₀] at hg₂
  refine ⟨_, hg₂, Core.memory_storeWord_congr hfilled, ?_, fun rd hsp hrd => ?_, h₁.output.trans houtput⟩
  · rw [Core.get_storeWord, Core.get_set (by decide)]
  · simp only [List.mem_cons, not_or] at hrd
    rw [Core.get_storeWord, Core.get_set_of_ne hsp, h₁.registers rd hrd.2.2, hregisters rd hrd.1 hrd.2.1]

end Built

section Declarations

variable {L : Layout} {lines : List Line} {core : Core} {f : Frame} {declared : Option Scalar} {init : ArrayInit}
  {d : DataSection} {n k k' : Nat} {x : Filler}

def nextRegion (L : Layout) (d : DataSection) (n : Nat) : Region :=
  ⟨L.data (d.allocate n).1 + 4, n⟩

theorem built_sized {limit label : Nat} {elem : Scalar} (hunique : ∀ l, labelCount l lines ≤ 1) (hn : n < 2 ^ 31)
    (hc : CodeAt lines k
      (regionCode d n ++ [loadZero .t1 elem] ++ upToCode limit n label unrolledFill fillLoop ++ push .t0)
      k') :
    ∃ core', Reaches L lines ⟨core, k⟩ ⟨core', k'⟩ ∧ Built core (nextRegion L d n) (.word (zeroWord L elem)) core' := by
  rw [List.append_assoc, codeAt_append] at hc
  obtain ⟨m, hregion, hc⟩ := hc
  let core₀ := ((core.set .t0 (L.data (d.allocate n).1)).set .t0 (nextRegion L d n).address).set .t1 (zeroWord L elem)
  have hg : Reaches L lines ⟨core, k⟩ ⟨core₀, m⟩ := by
    apply Reaches.straight hregion _ (.refl _)
    cases elem <;>
      simp [regionCode, loadZero, runLine, effect, immediateOp, Core.get_set, zeroWord, nextRegion, wordBytes, core₀]
  have hmemory : core₀.memory = core.memory := rfl
  refine Built.of_upTo hunique hn hmemory rfl (fun rd h₀ h₁ => ?_) ?_ ?_ hg hc
  · rw [Core.get_set_of_ne h₁, Core.get_set_of_ne h₀, Core.get_set_of_ne h₀]
  · rw [Core.get_set_of_ne (by decide), Core.get_set (by decide)]
  · exact Core.get_set (by decide)

theorem built_copied {limit label : Nat} {offset : Int} {source : Region} (hunique : ∀ l, labelCount l lines ≤ 1)
    (hn : n < 2 ^ 31) (hsource : source.address = core.loadWord (core.get .sp + .ofInt 32 offset))
    (hc : CodeAt lines k ([.lw .t1 offset .sp] ++ regionCode d n ++ upToCode limit n label unrolledCopy copyLoop
      ++ push .t0) k') :
    ∃ core', Reaches L lines ⟨core, k⟩ ⟨core', k'⟩ ∧ Built core (nextRegion L d n) (.elements source) core' := by
  rw [List.append_assoc, codeAt_append] at hc
  obtain ⟨m, hregion, hc⟩ := hc
  let core₀ := ((core.set .t1 source.address).set .t0 (L.data (d.allocate n).1)).set .t0 (nextRegion L d n).address
  have hg : Reaches L lines ⟨core, k⟩ ⟨core₀, m⟩ := by
    apply Reaches.straight hregion _ (.refl _)
    simp [regionCode, runLine, effect, immediateOp, Core.get_set, nextRegion, wordBytes, hsource, core₀]
  have hmemory : core₀.memory = core.memory := rfl
  refine Built.of_upTo hunique hn hmemory rfl (fun rd h₀ h₁ => ?_) ?_ ?_ hg hc
  · rw [Core.get_set_of_ne h₀, Core.get_set_of_ne h₀, Core.get_set_of_ne h₁]
  · exact Core.get_set (by decide)
  · change core₀.get .t1 = source.address
    rw [Core.get_set_of_ne (by decide), Core.get_set_of_ne (by decide), Core.get_set (by decide)]

/--
The code of an array of known length fills the next region of the data section, whatever the limit for code without a
loop is.
-/
theorem Known.built {limit label label' : Nat} {s : Scalar} {len : Option Nat} {c : List Line} {d' : DataSection}
    (hknown : Known L f core declared init n x) (hcode : ArrayCode limit f label d declared init s len c label' d')
    (hunique : ∀ l, labelCount l lines ≤ 1) (hc : CodeAt lines k c k') :
    ∃ core', Reaches L lines ⟨core, k⟩ ⟨core', k'⟩ ∧ Built core (nextRegion L d n) x core' := by
  cases hknown with
  | sized hliteral =>
    cases hcode with
    | computed hnone => cases hliteral.symm.trans hnone
    | sized hliteral' _ hword =>
      cases hliteral.symm.trans hliteral'
      unfold Lowering.intWord at hword
      split at hword
      · next hbounds =>
        cases hword
        exact built_sized hunique (by omega) hc
      · cases hword
  | @copied _ _ _ _ _ r hslot hlength haddress _ hheader =>
    cases hcode with
    | copied hslot' _ _ hlength' =>
      cases hslot.symm.trans hslot'
      cases hlength.symm.trans hlength'
      have hbound := (core.loadWord r.header).toInt_lt
      rw [hheader] at hbound
      exact built_copied hunique (by omega) haddress hc
    | copiedHeap hslot' _ _ hnone =>
      cases hslot.symm.trans hslot'
      cases hlength.symm.trans hnone

theorem Known.congr {L' : Layout} (hL : L'.data = L.data) (hknown : Known L f core declared init n x) :
    Known L' f core declared init n x := by
  cases hknown with
  | @sized elem _ _ hliteral =>
    have hzero : zeroWord L elem = zeroWord L' elem := by
      unfold zeroWord
      rw [hL]
    rw [hzero]
    exact .sized hliteral
  | copied hslot hlength haddress hn hheader => exact .copied hslot hlength haddress hn hheader

/--
What the generator keeps of an array of known length does not depend on the limit either.
-/
theorem Known.slot_eq {limit₁ limit₂ label₁ label₂ label₁' label₂' : Nat} {s₁ s₂ : Scalar} {len₁ len₂ : Option Nat}
    {c₁ c₂ : List Line} {d₁ d₂ : DataSection} (hknown : Known L f core declared init n x)
    (h₁ : ArrayCode limit₁ f label₁ d declared init s₁ len₁ c₁ label₁' d₁)
    (h₂ : ArrayCode limit₂ f label₂ d declared init s₂ len₂ c₂ label₂' d₂) : s₁ = s₂ ∧ len₁ = len₂ ∧ d₁ = d₂ := by
  cases hknown with
  | sized hliteral =>
    cases h₁ with
    | computed hnone => cases hliteral.symm.trans hnone
    | sized hliteral₁ _ hword₁ =>
      cases h₂ with
      | computed hnone => cases hliteral.symm.trans hnone
      | sized hliteral₂ _ hword₂ =>
        cases hliteral₁.symm.trans hliteral₂
        cases hword₁.symm.trans hword₂
        exact ⟨rfl, rfl, rfl⟩
  | copied hslot hlength =>
    cases h₁ with
    | copiedHeap hslot₁ _ _ hnone =>
      cases hslot.symm.trans hslot₁
      cases hlength.symm.trans hnone
    | copied hslot₁ hkind₁ _ hlength₁ =>
      cases h₂ with
      | copiedHeap hslot₂ _ _ hnone =>
        cases hslot.symm.trans hslot₂
        cases hlength.symm.trans hnone
      | copied hslot₂ hkind₂ _ hlength₂ =>
        cases hslot₁.symm.trans hslot₂
        cases hkind₁.symm.trans hkind₂
        cases hlength₁.symm.trans hlength₂
        exact ⟨rfl, rfl, rfl⟩

/--
From one machine two others filled a region alike and pushed its address. Nothing else is written but the word that is
pushed, and only the registers for the filling may differ.
-/
structure BuiltAlike (core : Core) (r : Region) (x : Filler) (core₁ core₂ : Core) : Prop where
  memory : core₁.memory = core₂.memory
  sp : core₁.get .sp = core.get .sp - 4 ∧ core₂.get .sp = core.get .sp - 4
  hp : core₁.get .hp = core.get .hp ∧ core₂.get .hp = core.get .hp
  pushed : core₁.loadWord (core₁.get .sp) = r.address ∧ core₂.loadWord (core₂.get .sp) = r.address
  registers : ∀ rd, rd ≠ .sp → rd ∉ .t0 :: .t1 :: fillRegisters → core₁.get rd = core₂.get rd
  untouched : ∀ a, 4 ≤ a - core₁.get .sp → (∀ i < r.length, 4 ≤ a - r.element i) → core₁.memory a = core.memory a
  filled : r.Fits → CoversWord (fun b => ¬r.Covers b) (core₁.get .sp) →
    core₁.loadWord r.header = core.loadWord r.header ∧
    (x.Apart r → ∀ i < r.length, core₁.loadWord (r.element i) = x.wordAt core i)

theorem Built.alike {core core₁ core₂ : Core} {r : Region} {x : Filler} (h₁ : Built core r x core₁)
    (h₂ : Built core r x core₂) : BuiltAlike core r x core₁ core₂ where
  memory := h₁.memory.trans h₂.memory.symm
  sp := ⟨h₁.sp, h₂.sp⟩
  hp := ⟨h₁.registers .hp (by decide) (by decide), h₂.registers .hp (by decide) (by decide)⟩
  pushed := ⟨h₁.pushed, h₂.pushed⟩
  registers rd hsp hrd := by rw [h₁.registers rd hsp hrd, h₂.registers rd hsp hrd]
  untouched _ hsp ha := h₁.untouched hsp ha
  filled hr hsp := ⟨h₁.header hr hsp, fun hx _ hi => h₁.element hr hx hsp hi⟩

/--
The code of an array of known length under two limits for code without a loop, zero included. From the same machine both
leave the same memory, stack pointer and pointer to the heap, and push the same address: the elements of the next region
are zero values or those of the source, and nothing else is written but the word that is pushed.
-/
theorem builtAlike_of_limits {limit₁ limit₂ : Nat} {span : Span} {elem : TypeName} {dims : UInt32} {name : String}
    {g₁ g₁' g₂ g₂' : Lowering.State} (hframe : g₂.frame = g₁.frame) (hdata : g₂.data = g₁.data)
    (h₁ : lowerStmt limit₁ (.arrayDecl span elem dims name init) g₁ = .ok () g₁')
    (h₂ : lowerStmt limit₂ (.arrayDecl span elem dims name init) g₂ = .ok () g₂') :
    ∃ c₁ c₂, g₁'.assembler = g₁.assembler.write c₁ ∧ g₂'.assembler = g₂.assembler.write c₂ ∧
      ∀ {L₁ L₂ : Layout} {lines₁ lines₂ : List Line} {k₁ k₁' k₂ k₂' n : Nat} {x : Filler} {core : Core},
        L₂.data = L₁.data → (∀ l, labelCount l lines₁ ≤ 1) → (∀ l, labelCount l lines₂ ≤ 1) →
        CodeAt lines₁ k₁ c₁ k₁' → CodeAt lines₂ k₂ c₂ k₂' → Known L₁ g₁.frame core elem.scalar? init n x →
        g₂'.frame = g₁'.frame ∧ g₂'.data = g₁'.data ∧
        ∃ core₁ core₂, Reaches L₁ lines₁ ⟨core, k₁⟩ ⟨core₁, k₁'⟩ ∧ Reaches L₂ lines₂ ⟨core, k₂⟩ ⟨core₂, k₂'⟩ ∧
          BuiltAlike core (nextRegion L₁ g₁.data n) x core₁ core₂ := by
  unfold lowerStmt at h₁ h₂
  obtain ⟨s₁, len₁, c₁, n₁, d₁, -, -, -, hcode₁, rfl⟩ := Lowering.arrayCode_of_lowerArrayDecl h₁
  obtain ⟨s₂, len₂, c₂, n₂, d₂, -, -, -, hcode₂, rfl⟩ := Lowering.arrayCode_of_lowerArrayDecl h₂
  rw [hframe, hdata] at hcode₂
  refine ⟨c₁, c₂, Lowering.State.assembler_write, Lowering.State.assembler_write, ?_⟩
  intro L₁ L₂ lines₁ lines₂ k₁ k₁' k₂ k₂' n x core hlayout hunique₁ hunique₂ hc₁ hc₂ hknown
  obtain ⟨rfl, rfl, rfl⟩ := hknown.slot_eq hcode₁ hcode₂
  obtain ⟨core₁, hg₁, hbuilt₁⟩ := hknown.built hcode₁ hunique₁ hc₁
  obtain ⟨core₂, hg₂, hbuilt₂⟩ := (hknown.congr hlayout).built hcode₂ hunique₂ hc₂
  have hregion : nextRegion L₂ g₁.data n = nextRegion L₁ g₁.data n := by
    unfold nextRegion
    rw [hlayout]
  rw [hregion] at hbuilt₂
  refine ⟨?_, rfl, core₁, core₂, hg₁, hg₂, hbuilt₁.alike hbuilt₂⟩
  simp only [Lowering.State.frame_write, hframe]

end Declarations

def threeZeros : Stmt :=
  .arrayDecl .unplaced .int 1 "v" (.sized (.literal .unplaced (.int 3)))

def copiedArray : Stmt :=
  .arrayDecl .unplaced .int 1 "w" (.copyOf "v")

def sourceFrame : Frame :=
  Frame.empty.pushNamed (.array .int) (some 3) "v"

def sourceCore : Core :=
  (((((usualStart.core.set .sp 0x7fffeff8).storeWord 0x7fffeff8 0x10030004).storeWord 0x10030000 3).storeWord
    0x10030004 7).storeWord 0x10030008 8).storeWord 0x1003000c 9

def arrayLines (limit : Nat) (stmt : Stmt) (f : Frame) : List Line :=
  match lowerStmt limit stmt { Lowering.State.start true with frame := f } with
  | .ok _ g => g.assembler.lines.toList
  | .error .. => []

theorem arrayLines_eq {limit : Nat} {stmt : Stmt} {f : Frame} {g : Lowering.State} {c : List Line}
    (h : lowerStmt limit stmt { Lowering.State.start true with frame := f } = .ok () g)
    (hc : g.assembler = (Lowering.State.start true).assembler.write c) : arrayLines limit stmt f = c := by
  rw [arrayLines, h]
  dsimp only
  rw [hc]
  simp [Lowering.State.start, Assembler.start]

theorem codeAt_arrayLines {limit : Nat} {stmt : Stmt} {f : Frame} {g : Lowering.State} {c : List Line}
    (h : lowerStmt limit stmt { Lowering.State.start true with frame := f } = .ok () g)
    (hc : g.assembler = (Lowering.State.start true).assembler.write c) :
    CodeAt (arrayLines limit stmt f) 0 c (arrayLines limit stmt f).length := by
  rw [arrayLines_eq h hc]
  have hstart := codeAt_start (c := c) []
  rwa [List.append_nil] at hstart

theorem known_sourceCore {L : Layout} :
    Known L sourceFrame sourceCore (some .int) (.copyOf "v") 3 (.elements ⟨0x10030004, 3⟩) :=
  have hresolved : sourceFrame.resolve? "v" = some (0, ⟨.array .int, 4, 0, some "v", some 3⟩) := by decide +kernel
  .copied hresolved rfl (by decide +kernel) rfl (by decide +kernel)

theorem apart_sourceCore : Region.Apart ⟨0x10030004, 3⟩ ⟨0x10010604, 3⟩ := by
  intro a
  unfold Region.Covers Region.header
  bv_omega

theorem coversWord_sourceCore : CoversWord (fun a => ¬Region.Covers ⟨0x10010604, 3⟩ a) 0x7fffeff4 := by
  intro j hj
  unfold Region.Covers Region.header
  bv_omega

theorem element_sourceCore : ∀ i < 3, sourceCore.loadWord (Region.element ⟨0x10030004, 3⟩ i) = .ofNat 32 (i + 7) := by
  decide +kernel

theorem builtAlike_threeZeros :
    (∃ core₁ core₂, Reaches (.usual (arrayLines 0 threeZeros .empty)) (arrayLines 0 threeZeros .empty) usualStart
        ⟨core₁, (arrayLines 0 threeZeros .empty).length⟩ ∧
      Reaches (.usual (arrayLines 3 threeZeros .empty)) (arrayLines 3 threeZeros .empty) usualStart
        ⟨core₂, (arrayLines 3 threeZeros .empty).length⟩ ∧
      core₁.memory = core₂.memory ∧ core₁.get .sp = core₂.get .sp ∧
      core₁.loadWord (core₁.get .sp) = core₂.loadWord (core₂.get .sp)) ∧
    ∃ core₁ core₂, Reaches (.usual (arrayLines 0 copiedArray sourceFrame)) (arrayLines 0 copiedArray sourceFrame)
        ⟨sourceCore, 0⟩ ⟨core₁, (arrayLines 0 copiedArray sourceFrame).length⟩ ∧
      Reaches (.usual (arrayLines 3 copiedArray sourceFrame)) (arrayLines 3 copiedArray sourceFrame) ⟨sourceCore, 0⟩
        ⟨core₂, (arrayLines 3 copiedArray sourceFrame).length⟩ ∧
      core₁.memory = core₂.memory ∧ core₁.get .sp = core₂.get .sp ∧ core₁.loadWord (core₁.get .sp) = 0x10010604 ∧
      ∀ i < 3, core₁.loadWord (Region.element ⟨0x10010604, 3⟩ i) = .ofNat 32 (i + 7) := by
  have hfinished (limit : Nat) (stmt : Stmt) (f : Frame)
      (h : (finished? (lowerStmt limit stmt { Lowering.State.start true with frame := f })).isSome = true) :
      ∃ g, lowerStmt limit stmt { Lowering.State.start true with frame := f } = .ok () g := by
    obtain ⟨_, g, h⟩ := ok_of_isSome_finished? h
    exact ⟨g, h⟩
  have hunique {lines : List Line} (h : (placed lines).Nodup) (l : Label) : labelCount l lines ≤ 1 :=
    Lowering.labelCount_le_one_of_nodup h l
  constructor
  · obtain ⟨g₁, h₁⟩ := hfinished 0 threeZeros .empty (by decide +kernel)
    obtain ⟨g₂, h₂⟩ := hfinished 3 threeZeros .empty (by decide +kernel)
    obtain ⟨c₁, c₂, hc₁, hc₂, halike⟩ := builtAlike_of_limits rfl rfl h₁ h₂
    obtain ⟨-, -, core₁, core₂, hg₁, hg₂, halike⟩ :=
      @halike (.usual (arrayLines 0 threeZeros .empty)) (.usual (arrayLines 3 threeZeros .empty)) _ _ _ _ _ _ _ _
        usualStart.core rfl (hunique (by decide +kernel)) (hunique (by decide +kernel)) (codeAt_arrayLines h₁ hc₁)
        (codeAt_arrayLines h₂ hc₂) (.sized rfl)
    exact ⟨core₁, core₂, hg₁, hg₂, halike.memory, halike.sp.1.trans halike.sp.2.symm,
      halike.pushed.1.trans halike.pushed.2.symm⟩
  · obtain ⟨g₁, h₁⟩ := hfinished 0 copiedArray sourceFrame (by decide +kernel)
    obtain ⟨g₂, h₂⟩ := hfinished 3 copiedArray sourceFrame (by decide +kernel)
    obtain ⟨c₁, c₂, hc₁, hc₂, halike⟩ := builtAlike_of_limits rfl rfl h₁ h₂
    obtain ⟨-, -, core₁, core₂, hg₁, hg₂, halike⟩ :=
      @halike (.usual (arrayLines 0 copiedArray sourceFrame)) (.usual (arrayLines 3 copiedArray sourceFrame)) _ _ _ _ _
        _ _ _ sourceCore rfl (hunique (by decide +kernel)) (hunique (by decide +kernel)) (codeAt_arrayLines h₁ hc₁)
        (codeAt_arrayLines h₂ hc₂) known_sourceCore
    have hsp : core₁.get .sp = 0x7fffeff4 := halike.sp.1.trans (by decide +kernel)
    have hfits {a : Word} : Region.Fits ⟨a, 3⟩ := show 4 * (3 + 1) ≤ 2 ^ 32 by decide
    obtain ⟨-, hcopied⟩ := halike.filled hfits (hsp ▸ coversWord_sourceCore)
    refine ⟨core₁, core₂, hg₁, hg₂, halike.memory, halike.sp.1.trans halike.sp.2.symm, halike.pushed.1, fun i hi => ?_⟩
    have hword : core₁.loadWord _ = sourceCore.loadWord (Region.element ⟨0x10030004, 3⟩ i) :=
      hcopied ⟨hfits, rfl, apart_sourceCore⟩ i hi
    exact hword.trans (element_sourceCore i hi)

end Arbor.Machine
