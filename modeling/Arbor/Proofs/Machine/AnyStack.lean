import Arbor.Proofs.Lowering.Closed
import Arbor.Proofs.Lowering.NetEffect
import Arbor.Proofs.Machine.Loading
import Arbor.Proofs.Machine.Passage
import Arbor.Proofs.Machine.Tracking

/-!
This module contains what the code of an expression does from any stack: it pushes the word of the value, and changes
nothing above but the variables that the evaluation changes.
-/

namespace Arbor.Machine

open Assembly Evaluation
open Lowering (Frame Slot SlotKind Reached lowerExpr)

/--
The variables with some names hold the words of their values, at the offsets of their slots from the stack pointer. The
values are ints, bools and chars, as the slots say.
-/
def Agrees (V : String → Prop) (f : Frame) (env : Environment) (core : Core) : Prop :=
  ∀ name offset slot, V name → f.resolve? name = some (offset, slot) →
    ∃ b, env.get name = .ok b ∧ b.kind = slot.kind.kind ∧ HasCell slot.kind b.value ∧
      core.loadWord (core.get .sp + .ofInt 32 offset) = wordOf b.value

/--
The machine has pushed the word of a value, and its variables are those of an environment. Of the bytes that are part of
none of these variables only those of the `height` words right below the old stack pointer may have changed.
-/
structure Pushes (V : String → Prop) (f f' : Frame) (height : Nat) (env : Environment) (v : Value)
    (core core' : Core) : Prop where
  sp : core'.get .sp = core.get .sp - .ofInt 32 wordBytes
  top : core'.loadWord (core'.get .sp) = wordOf v
  agrees : Agrees V f' env core'
  memory : ∀ n : Nat, n + 4 * height < 2 ^ 32 →
    (∀ name offset slot, V name → f.resolve? name = some (offset, slot) → n < offset ∨ offset + wordBytes ≤ n) →
    core'.memory (core.get .sp + .ofNat 32 n) = core.memory (core.get .sp + .ofNat 32 n)
  registers : ∀ r, r ∉ workRegisters → r ≠ .sp → core'.get r = core.get r
  output : core'.output = core.output

namespace Passage

variable {p : Passage} {f : Frame} {kept : Nat → Word} {s : Evaluation.State} {core : Core} {name : String}
  {n : Nat} {slot : Slot}

theorem stackTop_base : stackTop p.base p.frame.bytes = p.start.core.get .sp := by
  rw [p.nested.bytes_eq, stackTop_words, base, BitVec.add_sub_cancel]

theorem holds_start (hagrees : Agrees p.names p.frame s.env p.start.core) :
    p.Holds p.frame (fun n => p.start.core.loadWord (slotAt p.base n)) s p.start.core where
  nested := p.nested
  place _ := rfl
  le := Nat.le_add_right _ _
  sp := stackTop_base.symm
  bound name n slot hname hplace := by
    have hslot := p.nested.resolve?_eq name
    rw [hplace, Option.map_some] at hslot
    obtain ⟨b, hget, hkind, hvalue, hword⟩ := hagrees name _ slot hname hslot
    refine ⟨b, hget, hkind, hvalue, ?_⟩
    rwa [← stackTop_base, stackTop_add_offset (Int.sub_add_cancel ..)] at hword
  kept _ _ _ := rfl
  memory _ _ := rfl
  registers _ _ _ := rfl
  output := rfl

theorem Holds.agrees (h : p.Holds f kept s core) : Agrees p.names f s.env core := by
  intro name offset slot hname hslot
  obtain ⟨n, hplace, hoffset⟩ := h.nested.place?_of_resolve? hslot
  rw [h.place] at hplace
  obtain ⟨b, hget, hkind, hvalue, hword⟩ := h.bound name n slot hname hplace
  refine ⟨b, hget, hkind, hvalue, ?_⟩
  rw [h.sp, stackTop_add_offset hoffset, hword]

theorem spares {n : Nat} (hn : n + 4 * p.height < 2 ^ 32)
    (hother : ∀ name offset slot, p.names name → p.frame.resolve? name = some (offset, slot) →
      n < offset ∨ offset + wordBytes ≤ n) :
    p.Spares (p.start.core.get .sp + .ofNat 32 n) := by
  have hroom := p.room
  constructor
  · rintro m ⟨hle, hlt⟩
    unfold slotAt base
    generalize p.start.core.get .sp = sp
    bv_omega
  · intro name m slot hname hplace
    have hm := Frame.place?_lt hplace
    have hslot := p.nested.resolve?_eq name
    rw [hplace, Option.map_some] at hslot
    have hapart := hother name _ slot hname hslot
    rw [p.nested.bytes_eq] at hapart
    unfold wordBytes at hapart
    unfold slotAt base
    generalize p.start.core.get .sp = sp
    bv_omega

end Passage

/--
The code of an expression pushes the word of the value that the expression evaluates to, from every stack that agrees
with the environment on the variables of the expression, if there is room below for the words that are pushed. The
evaluation only fails for a division by zero, and then the machine exits in the check of the divisor.
-/
theorem pushes_of_lowerExpr {g g' : Lowering.State} {e : Expr} {kind : SlotKind} (hreached : Reached g)
    (haccepted : lowerExpr e g = .ok kind g') (hcells : e.onCells g.frame = true) :
    ∃ c, g'.assembler = g.assembler.write c ∧
      ∀ {L : Layout} {lines : List Line} {k k' : Nat}, Linked L lines → CodeAt lines k c k' →
      ∀ {V : String → Prop} {cx : Context} {s : Evaluation.State} {core : Core}, (∀ name ∈ e.names, V name) →
        Agrees V g.frame s.env core → g.frame.bytes + wordBytes * e.height ≤ 2 ^ 32 →
        match evaluate cx e s with
        | .ok v s' => HasCell kind v ∧ ∃ core', Reaches L lines ⟨core, k⟩ ⟨core', k'⟩ ∧
            Pushes V g.frame g'.frame e.height s'.env v core core'
        | .error (.error err) _ => err.kind = .divisionByZero ∧ FailsDividing L lines ⟨core, k⟩
        | .error .outOfFuel _ => False := by
  obtain ⟨len, c, n, hcode, rfl⟩ := Lowering.writes_lowerExpr e g g' kind haccepted
  refine ⟨c, Lowering.State.assembler_write, ?_⟩
  intro L lines k k' hlinked hc V cx s core hnames hagrees hroom
  have hnested : g.frame.Nested := hreached.layered.nested
  have hwords : 4 * (g.frame.slots.length + e.height) ≤ 2 ^ 32 := by
    rw [hnested.bytes_eq] at hroom
    unfold wordBytes at hroom
    omega
  let p : Passage := ⟨L, lines, hlinked, ⟨core, k⟩, g.frame, hnested, V, e.height, hwords⟩
  have hstart : p.tracker.At k (p.Holds g.frame fun n => core.loadWord (slotAt p.base n)) s :=
    ⟨core, Reaches.refl _, Passage.holds_start hagrees⟩
  have hbelow : ∀ i < e.height, p.IsBelow (g.frame.slots.length + i) :=
    fun i hi => ⟨Nat.le_add_right _ _, Nat.add_lt_add_left hi _⟩
  have hfollows : Triple (p.tracker.At k (p.Holds g.frame fun n => core.loadWord (slotAt p.base n)))
      (evaluate cx e) (p.tracker.Pushed g.frame _ kind len k') p.tracker.Halts :=
    Tracker.follows_evaluate hcode hcells (by simp) (fun name hname _ => hnames name hname) hbelow hc
  have hfollows := hfollows s hstart
  cases hvalue : evaluate cx e s with
  | error halt s' =>
    rw [hvalue] at hfollows
    cases halt with
    | error err => exact hfollows
    | outOfFuel => exact hfollows
  | ok v s' =>
    rw [hvalue] at hfollows
    obtain ⟨hv, core', hreaches, h⟩ := hfollows
    have h : p.Holds (g.frame.push kind len) _ s' core' := h
    refine ⟨hv, core', hreaches, ?_, ?_, h.agrees, ?_, h.registers, h.output⟩
    · rw [h.sp, Frame.bytes_push, stackTop_add, Passage.stackTop_base (p := p)]
    · exact h.top
    · exact fun n hn hother => h.memory _ (Passage.spares hn hother)

def pairProgram : Program where
  statements := [
    .varDecl .unplaced .int "n" (some (.literal .unplaced (.int 7))),
    .varDecl .unplaced .char "c" (some (.literal .unplaced (.char 'q')))]

/--
A choice that changes the int in each of its parts: `c < 'z' && --n > 0 ? (n = n * 2) / --n : 0`.
-/
def changingExpr : Expr :=
  .ternary .unplaced
    (.binary .unplaced .and
      (.binary .unplaced .lt (.var .unplaced "c") (.literal .unplaced (.char 'z')))
      (.binary .unplaced .gt (.step .unplaced "n" .down) (.literal .unplaced (.int 0))))
    (.binary .unplaced .div
      (.grouping .unplaced (.assign .unplaced "n" .set
        (.binary .unplaced .mul (.var .unplaced "n") (.literal .unplaced (.int 2)))))
      (.step .unplaced "n" .down))
    (.literal .unplaced (.int 0))

def pairGenerator : Lowering.State :=
  ((Lowering.Generator.start .default).lower pairProgram).2.state

def pairState : Evaluation.State :=
  ((Session.start ⟨true, 0, 0⟩).run 9 pairProgram).session.state

def changingLines : List Line :=
  (match lowerExpr changingExpr pairGenerator with
    | .ok _ g => g.assembler.lines.toList.drop pairGenerator.assembler.lines.size
    | .error .. => []) ++ Routine.checkDivZero.lines

def pairCore : Core :=
  (((usualStart.core.set .sp 0x7fffeff4).storeWord 0x7fffeff8 7).storeWord 0x7fffeff4 113)

theorem linked_changingLines : Linked (Layout.usual changingLines) changingLines :=
  linked_usual (by decide +kernel) (by decide +kernel) (by decide +kernel)

def intOf? (env : Environment) (name : String) : Option Int32 :=
  match env.get name with
  | .ok ⟨.scalar .int, .int n⟩ => some n
  | _ => none

def charOf? (env : Environment) (name : String) : Option Char :=
  match env.get name with
  | .ok ⟨.scalar .char, .char c⟩ => some c
  | _ => none

def intResult? : EStateM.Result Halt Evaluation.State Value → Option (Int32 × Evaluation.State)
  | .ok (.int n) s => some (n, s)
  | _ => none

section Results

variable {env : Environment} {name : String} {m : Int32} {x : EStateM.Result Halt Evaluation.State Value}
  {s : Evaluation.State}

theorem get_of_intOf? (h : intOf? env name = some m) : env.get name = .ok ⟨.scalar .int, .int m⟩ := by
  unfold intOf? at h
  split at h
  · next hget =>
    cases h
    exact hget
  · cases h

theorem get_of_charOf? {c : Char} (h : charOf? env name = some c) :
    env.get name = .ok ⟨.scalar .char, .char c⟩ := by
  unfold charOf? at h
  split at h
  · next hget =>
    cases h
    exact hget
  · cases h

theorem eq_ok_of_intResult? (h : intResult? x = some (m, s)) : x = .ok (.int m) s := by
  unfold intResult? at h
  split at h
  · cases h
    rfl
  · cases h

end Results

theorem agrees_pairCore : Agrees (· ∈ ["n", "c"]) pairGenerator.frame pairState.env pairCore := by
  intro name offset slot hname hslot
  rw [List.mem_pair] at hname
  rcases hname with rfl | rfl
  · have hfound : pairGenerator.frame.resolve? "n" = some (4, ⟨.int, 4, 0, some "n", none⟩) := by decide +kernel
    have hvalue : intOf? pairState.env "n" = some 7 := by decide +kernel
    rw [hfound] at hslot
    cases hslot
    exact ⟨_, get_of_intOf? hvalue, rfl, .int 7, by decide +kernel⟩
  · have hfound : pairGenerator.frame.resolve? "c" = some (0, ⟨.char, 4, 0, some "c", none⟩) := by decide +kernel
    have hvalue : charOf? pairState.env "c" = some 'q' := by decide +kernel
    rw [hfound] at hslot
    cases hslot
    exact ⟨_, get_of_charOf? hvalue, rfl, .char 'q', by decide +kernel⟩

theorem comments_pairGenerator : pairGenerator.assembler.comments = true := by
  decide +kernel

theorem pushes_changingExpr : ∃ core' k', Reaches (.usual changingLines) changingLines ⟨pairCore, 0⟩ ⟨core', k'⟩ ∧
    core'.loadWord 0x7fffeff0 = 1 ∧ core'.loadWord 0x7fffeff8 = 11 := by
  let cx : Context := ⟨0, 0, fun _ _ _ => throw .outOfFuel⟩
  have hreached : Reached pairGenerator := (Lowering.netEffect_of_reached (.start true)).2.2 .default pairProgram
  have hlowered : (match lowerExpr changingExpr pairGenerator with
      | .ok _ g => decide (g.frame.resolve? "n" = some (8, ⟨.int, 4, 0, some "n", none⟩))
      | .error .. => false) = true := by
    decide +kernel
  have hevaluated : ((intResult? (evaluate cx changingExpr pairState)).map fun r =>
      (r.1, intOf? r.2.env "n")) = some (1, some 11) := by
    decide +kernel
  obtain ⟨⟨m, s⟩, hresult, hleft⟩ := Option.map_eq_some_iff.mp hevaluated
  rw [Prod.mk.injEq] at hleft
  obtain ⟨rfl, hn⟩ := hleft
  cases haccepted : lowerExpr changingExpr pairGenerator with
  | error => simp [haccepted] at hlowered
  | ok kind g =>
    rw [haccepted] at hlowered
    obtain ⟨c, hcode, hpushes⟩ := pushes_of_lowerExpr hreached haccepted (by decide +kernel)
    have hlines : changingLines = c ++ Routine.checkDivZero.lines := by
      simp [changingLines, haccepted, hcode, comments_pairGenerator, ← Array.length_toList]
    have hc : CodeAt changingLines 0 c c.length := by
      rw [hlines]
      exact codeAt_start _
    have hpushed := @hpushes _ _ _ _ linked_changingLines hc _ cx _ _ (by decide) agrees_pairCore (by decide +kernel)
    rw [eq_ok_of_intResult? hresult] at hpushed
    obtain ⟨-, core', hreaches, h⟩ := hpushed
    obtain ⟨b, hget, -, -, hword⟩ := h.agrees "n" 8 _ (by simp) (of_decide_eq_true hlowered)
    have hsp : core'.get .sp = 0x7fffeff0 := h.sp
    have htop := h.top
    rw [hsp] at htop hword
    rw [get_of_intOf? hn] at hget
    cases hget
    exact ⟨core', c.length, hreaches, htop, hword⟩

end Arbor.Machine
