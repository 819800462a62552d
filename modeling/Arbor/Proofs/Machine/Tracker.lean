import Arbor.Proofs.Evaluation.Triple
import Arbor.Proofs.Machine.Cells
import Mathlib.Logic.Function.Basic

/-!
This module contains what the code of expressions relies on of the machine that runs it, the assertions about a run of
the evaluator and a machine that keeps up with it, and the code of operators.
-/

namespace Arbor.Machine

open Assembly
open Evaluation (State Halt Triple)
open Lowering (Frame Slot SlotKind BinaryCode labelCount)

def workRegisters : List Register :=
  [.t0, .t1, .a0, .ra]

theorem ne_of_mem_workRegisters : ∀ rd ∈ workRegisters, rd ≠ .zero ∧ rd ≠ .sp := by
  decide

/--
A machine before a run in which its stack is kept as a frame says. The words of the slots without a name are given, and
some of the variables are those of a state of the evaluator. One more word can be pushed on a number of slots
if there is room for it. The check of a divisor returns, or the machine fails in a way that goes with the state.
-/
structure Tracker where
  layout : Layout
  lines : List Line
  start : Hart
  Holds : Frame → (Nat → Word) → State → Core → Prop
  Names : String → Slot → Prop
  HasRoom : Nat → Prop
  Fails : State → Prop
  unique : ∀ l, labelCount l lines ≤ 1
  set {f : Frame} {kept : Nat → Word} {s : State} {core : Core} {rd : Register} {w : Word} :
    Holds f kept s core → rd ∈ workRegisters → Holds f kept s (core.set rd w)
  retyped {f : Frame} {kept : Nat → Word} {s : State} {core : Core} {kind kind' : SlotKind}
    {len len' : Option Nat} :
    Holds (f.push kind len) kept s core → Holds (f.push kind' len') kept s core
  pushed {f : Frame} {kept : Nat → Word} {s : State} {core : Core} {k k' : Nat} {kind : SlotKind}
    {len : Option Nat} :
    Reaches layout lines start ⟨core, k⟩ → Holds f kept s core → HasRoom f.slots.length →
    CodeAt lines k (push .t0) k' →
    ∃ core', Reaches layout lines start ⟨core', k'⟩ ∧
      Holds (f.push kind len) (Function.update kept f.slots.length (core.get .t0)) s core'
  top {f : Frame} {kept : Nat → Word} {s : State} {core : Core} {kind : SlotKind} {len : Option Nat} {w : Word} :
    Holds (f.push kind len) (Function.update kept f.slots.length w) s core → core.loadWord (core.get .sp) = w
  popped {f : Frame} {kept : Nat → Word} {s : State} {core : Core} {k k' : Nat} {kind : SlotKind}
    {len : Option Nat} {rd : Register} {w : Word} :
    Reaches layout lines start ⟨core, k⟩ →
    Holds (f.push kind len) (Function.update kept f.slots.length w) s core → CodeAt lines k (pop rd) k' →
    rd ∈ workRegisters →
    ∃ core', Reaches layout lines start ⟨core', k'⟩ ∧ Holds f kept s core' ∧ core'.get rd = w ∧
      ∀ r, r ≠ rd → r ≠ .sp → core'.get r = core.get r
  loaded {f : Frame} {kept : Nat → Word} {s : State} {core : Core} {name : String} {offset : Int} {slot : Slot} :
    Holds f kept s core → Names name slot → f.resolve? name = some (offset, slot) →
    ∃ b, s.env.get name = .ok b ∧ b.kind = slot.kind.kind ∧ HasCell slot.kind b.value ∧
      effect layout core (.load .word .t0 offset .sp) = some (core.set .t0 (wordOf b.value))
  stored {f : Frame} {kept : Nat → Word} {s : State} {core : Core} {k : Nat} {name : String} {offset : Int}
    {slot : Slot} {v : Value} :
    Reaches layout lines start ⟨core, k⟩ → Holds f kept s core → lines[k]? = some (.sw .t0 offset .sp) →
    Names name slot → f.resolve? name = some (offset, slot) → HasCell slot.kind v → core.get .t0 = wordOf v →
    ∃ env core', s.env.set name v = .ok env ∧ Reaches layout lines start ⟨core', k + 1⟩ ∧
      Holds f kept { s with env } core' ∧ ∀ r, core'.get r = core.get r
  divided {f : Frame} {kept : Nat → Word} {s : State} {core : Core} {k : Nat} :
    Reaches layout lines start ⟨core, k⟩ → Holds f kept s core →
    lines[k]? = some (.jal Routine.checkDivZero.label) → k + 1 < lines.length →
    if core.get .a0 = 0 then Fails s
    else ∃ w, Reaches layout lines start ⟨core.set .ra w, k + 1⟩

namespace Tracker

def At (p : Tracker) (k : Nat) (P : State → Core → Prop) (s : State) : Prop :=
  ∃ core, Reaches p.layout p.lines p.start ⟨core, k⟩ ∧ P s core

/--
The only way for an evaluation to halt is a division by zero, for which the machine fails.
-/
def Halts (p : Tracker) : Halt → State → Prop
  | .error e, s => e.kind = .divisionByZero ∧ p.Fails s
  | .outOfFuel, _ => False

structure Pushed (p : Tracker) (f : Frame) (kept : Nat → Word) (kind : SlotKind) (len : Option Nat) (k : Nat)
    (v : Value) (s : State) : Prop where
  value : HasCell kind v
  holds : p.At k (p.Holds (f.push kind len) (Function.update kept f.slots.length (wordOf v))) s

section Pieces

variable {p : Tracker} {k k' m : Nat} {core : Core} {f : Frame} {kept : Nat → Word} {s : State}
  {kind left right : SlotKind} {len len' : Option Nat} {v w : Value} {c : List Line} {l : Label} {b : Bool}

theorem computed (hg : Reaches p.layout p.lines p.start ⟨core, k⟩) (h : p.Holds f kept s core)
    (hroom : p.HasRoom f.slots.length) (hc : CodeAt p.lines k (c ++ push .t0) k') (hv : HasCell kind v)
    (hrun : runLines p.layout core c = some (core.set .t0 (wordOf v))) : p.Pushed f kept kind len k' v s := by
  obtain ⟨m, hc, hpush⟩ := codeAt_append.mp hc
  obtain ⟨core', hg', h'⟩ := p.pushed (Reaches.straight hc hrun hg) (p.set h (by decide)) hroom hpush
  rw [Core.get_set (by decide)] at h'
  exact ⟨hv, core', hg', h'⟩

theorem poppedTwo {a b : Word} (hg : Reaches p.layout p.lines p.start ⟨core, k⟩)
    (h : p.Holds ((f.push left len).push right len')
      (Function.update (Function.update kept f.slots.length a) (f.slots.length + 1) b) s core)
    (hc : CodeAt p.lines k (pop .t1 ++ pop .t0) k') :
    ∃ core', Reaches p.layout p.lines p.start ⟨core', k'⟩ ∧ p.Holds f kept s core' ∧ core'.get .t0 = a ∧
      core'.get .t1 = b := by
  obtain ⟨m, hpop₁, hpop₀⟩ := codeAt_append.mp hc
  obtain ⟨core₁, hg₁, h₁, hright, -⟩ := p.popped hg h hpop₁ (by decide)
  obtain ⟨core₂, hg₂, h₂, hleft, hsame⟩ := p.popped hg₁ h₁ hpop₀ (by decide)
  exact ⟨core₂, hg₂, h₂, hleft, (hsame .t1 (by decide) (by decide)).trans hright⟩

theorem tested {isAnd : Bool} (hg : Reaches p.layout p.lines p.start ⟨core, k⟩)
    (h : p.Holds (f.push kind len) (Function.update kept f.slots.length (wordOf (.bool b))) s core)
    (hc : CodeAt p.lines k (pop .t0 ++ [Lowering.shortcut isAnd l]) k')
    (hm : p.lines[m]? = some (.label l)) : p.At (if b = isAnd then k' else m) (p.Holds f kept) s := by
  obtain ⟨i, hpop, hjump⟩ := codeAt_append.mp hc
  obtain ⟨core', hg', h', ht₀, -⟩ := p.popped hg h hpop (by decide)
  refine ⟨core', ?_, h'⟩
  cases isAnd with
  | true | false =>
    obtain ⟨hline, rfl⟩ := codeAt_instruction.mp hjump
    have hbranch := hg'.branchZero hline hm (p.unique l)
    rw [ht₀] at hbranch
    cases b <;> exact hbranch

/-! Operators -/

theorem checked {op : BinaryOp} {i : Instruction} (hg : Reaches p.layout p.lines p.start ⟨core, k⟩)
    (h : p.Holds f kept s core) (hc : CodeAt p.lines k (Lowering.divisorCheck op) k')
    (hnext : p.lines[k']? = some (.instruction i)) :
    if Lowering.isDivision op = true ∧ core.get .t1 = 0 then p.Fails s
    else ∃ core', Reaches p.layout p.lines p.start ⟨core', k'⟩ ∧ p.Holds f kept s core' ∧
      core'.get .t0 = core.get .t0 ∧ core'.get .t1 = core.get .t1 := by
  unfold Lowering.divisorCheck at hc
  cases hop : Lowering.isDivision op with
  | false =>
    rw [if_neg (by simp)]
    rw [hop] at hc
    cases hc
    exact ⟨core, hg, h, rfl, rfl⟩
  | true =>
    rw [hop, if_pos rfl] at hc
    simp only [codeAt_instruction, codeAt_nil] at hc
    obtain ⟨hmv, hjal, rfl⟩ := hc
    have hmoved : Reaches p.layout p.lines p.start ⟨core.set .a0 (core.get .t1), k + 1⟩ :=
      hg.step (step_instruction hmv rfl)
    have hlength : k + 1 + 1 < p.lines.length := (List.getElem?_eq_some_iff.mp hnext).1
    have hcheck := p.divided hmoved (p.set h (by decide)) hjal hlength
    rw [Core.get_set (by decide)] at hcheck
    by_cases hzero : core.get .t1 = 0
    · rw [if_pos hzero] at hcheck
      rw [if_pos ⟨rfl, hzero⟩]
      exact hcheck
    · rw [if_neg hzero] at hcheck
      rw [if_neg (fun hand => hzero hand.2)]
      obtain ⟨ra, hchecked⟩ := hcheck
      refine ⟨_, hchecked, p.set (p.set h (by decide)) (by decide), ?_, ?_⟩
      · rw [Core.get_set_of_ne (by decide), Core.get_set_of_ne (by decide)]
      · rw [Core.get_set_of_ne (by decide), Core.get_set_of_ne (by decide)]

theorem intOperation_eq (op : BinaryOp) : ∃ i, Lowering.intOperation op = [.instruction i] := by
  cases op <;> exact ⟨_, rfl⟩

theorem follows_binary {op : BinaryOp} {span : Span} (hc : BinaryCode op left right kind c)
    (hplus : op = .add → left ≠ .char) (hroom : p.HasRoom f.slots.length) (hcode : CodeAt p.lines k c k')
    (hv : HasCell left v) (hw : HasCell right w) :
    Triple
      (p.At k (p.Holds ((f.push left len).push right len')
        (Function.update (Function.update kept f.slots.length (wordOf v)) (f.slots.length + 1) (wordOf w))))
      (Evaluation.liftAt span (Value.binary op v w)) (p.Pushed f kept kind none k') p.Halts := by
  rintro s ⟨core, hg, h⟩
  cases hc with
  | ints hop =>
    obtain ⟨a, rfl⟩ := (hv.hasWord nofun).exists_int
    obtain ⟨b, rfl⟩ := (hw.hasWord nofun).exists_int
    rw [List.append_assoc, codeAt_append] at hcode
    obtain ⟨m₂, hoperands, hresult⟩ := hcode
    obtain ⟨m₁, hpops, hcheck⟩ := codeAt_append.mp hoperands
    obtain ⟨core₁, hg₁, h₁, ht₀, ht₁⟩ := poppedTwo hg h hpops
    -- The check of the divisor returns to the line after its call, so there must be one.
    obtain ⟨i, hi⟩ := intOperation_eq op
    have hnext : p.lines[m₂]? = some (.instruction i) := by
      rw [hi] at hresult
      exact (codeAt_instruction.mp hresult).1
    have hchecked := checked hg₁ h₁ hcheck hnext
    cases hbinary : Value.binary op (.int a) (.int b) with
    | error e =>
      obtain ⟨hdivision, rfl, rfl⟩ := error_of_division hop hbinary
      rw [if_pos ⟨hdivision, ht₁⟩] at hchecked
      exact ⟨rfl, hchecked⟩
    | ok u =>
      have hgoes : ¬(Lowering.isDivision op = true ∧ core₁.get .t1 = 0) := by
        rw [ht₁]
        exact fun hzero => not_division_of_ok hop hbinary ⟨hzero.1, Int32.toBitVec_inj.mp hzero.2⟩
      rw [if_neg hgoes] at hchecked
      obtain ⟨core₂, hg₂, h₂, hsame₀, hsame₁⟩ := hchecked
      obtain ⟨hu, hrun⟩ := runLines_intOperation (L := p.layout) hop hbinary (hsame₀.trans ht₀)
        (hsame₁.trans ht₁)
      exact computed hg₂ h₂ hroom hresult hu.hasCell hrun
  | words hop =>
    rw [List.append_assoc, codeAt_append] at hcode
    obtain ⟨m, hpops, hcode⟩ := hcode
    obtain ⟨core', hg', h', ht₀, ht₁⟩ := poppedTwo hg h hpops
    rw [binary_cells hop hv hw]
    exact computed hg' h' hroom hcode (.bool _)
      (runLines_wordCompare (Agreement.cls_of_comparesWords hop) ht₀ ht₁)
  | concatenation hleft => exact absurd (hv.char_of_text hleft) (hplus rfl)
  | texts _ hleft hright hchars => exact (hchars ⟨hv.char_of_text hleft, hw.char_of_text hright⟩).elim
  | floats _ hleft hright hints | comparedFloats _ hleft hright hints =>
    exact (hints ⟨hv.int_of_numeric hleft, hw.int_of_numeric hright⟩).elim

end Pieces

end Tracker

end Arbor.Machine
