import Arbor.Proofs.Machine.Process
import Arbor.Proofs.Machine.Tracking

/-!
This module contains the assertions about a run of the evaluator and a process that keeps up with it, and the code of
expressions on words in a process. It pushes the word of the value that the expression evaluates to, and changes the
variables as the evaluation does.
-/

namespace Arbor

open Lowering (Frame)

theorem Expr.onCells_of_onWords {f : Frame} (hslots : ∀ name found, f.resolve? name = some found → found.2.kind ≠ .char)
    (e : Expr) (hwords : e.onWords = true) : e.onCells f = true ∧ e.isChar f = false := by
  have hvar (name : String) : ((f.resolve? name).any fun found => found.2.kind == .char) = false := by
    cases hslot : f.resolve? name with
    | none => rfl
    | some found => exact beq_false_of_ne (hslots name found hslot)
  fun_induction onWords e <;> simp_all [onCells, isChar]

namespace Machine.Process

open Assembly Evaluation
open Lowering (Slot SlotKind ExprCode)

def At (p : Process) (k : Nat) (P : State → Core → Prop) (s : State) : Prop :=
  ∃ core, p.Gets k core ∧ P s core

/--
If a run halts, it is used up or it divides by zero. Then the machine outputs the message after what was printed, and
exits with status 1.
-/
def Halts (p : Process) : Halt → State → Prop
  | .error e, s =>
    e.kind = .divisionByZero ∧ ∃ rest, newline ∉ rest ∧ p.Fails (printed s.lines ++ rest)
  | .outOfFuel, _ => True

structure Pushed (p : Process) (f : Frame) (kept : Nat → Word) (pending : List UInt8) (kind : SlotKind)
    (len : Option Nat) (k : Nat) (v : Value) (s : State) : Prop where
  value : HasWord kind v
  holds : p.At k (p.Holds (f.push kind len) (Function.update kept f.slots.length (wordOf v)) pending) s

section Pieces

variable {p : Process} {k k' : Nat} {core : Core} {f : Frame} {kept : Nat → Word}
  {pending : List UInt8} {s : State} {kind left right : SlotKind} {len len' : Option Nat} {v : Value}
  {c : List Line}

namespace Holds

theorem computed (h : p.Holds f kept pending s core) (hg : p.Gets k core)
    (hc : CodeAt p.lines k (c ++ push .t0) k') (hv : HasWord kind v)
    (hrun : runLines p.layout core c = some (core.set .t0 (wordOf v))) :
    p.Pushed f kept pending kind len k' v s := by
  rw [codeAt_append] at hc
  obtain ⟨m, hc, hpush⟩ := hc
  obtain ⟨core', hg', h'⟩ := (h.set (by decide)).pushed (hg.straight hc hrun) hpush (by decide)
    (Core.get_set (by decide))
  exact ⟨hv, core', hg', h'⟩

theorem retyped {words : Nat → Word} (h : p.Holds (f.push left len) words pending s core) :
    p.Holds (f.push right len') words pending s core where
  words := by
    obtain ⟨words, hwords⟩ := h.words
    obtain ⟨hbound, htop⟩ := Agreement.Bound.of_push hwords.bound
    exact ⟨words, hwords.load, hbound.push htop⟩
  room := h.room
  strings := h.strings
  output := h.output
  sp := h.sp.trans (by rw [Frame.bytes_push, Frame.bytes_push])

theorem stored_cell {name : String} {offset : Int} {slot : Slot} (h : p.Holds f kept pending s core)
    (hg : p.Gets k core) (hl : p.lines[k]? = some (.sw .t0 offset .sp))
    (hslot : f.resolve? name = some (offset, slot)) (hv : HasCell slot.kind v) (ht₀ : core.get .t0 = wordOf v) :
    ∃ env core', s.env.set name v = .ok env ∧ p.Gets (k + 1) core' ∧
      p.Holds f kept pending { s with env } core' ∧ ∀ r, core'.get r = core.get r := by
  obtain ⟨b, -, -, hvalue, -⟩ := h.loaded .t0 hslot
  exact h.stored hg hl hslot (hv.hasWord hvalue.ne_char) ht₀

end Holds

def tracker (p : Process) (pending : List UInt8) : Tracker where
  layout := p.layout
  lines := p.lines
  start := p.start
  Holds f kept := p.Holds f kept pending
  Names _ _ := True
  HasRoom _ := True
  Fails s := p.Fails (printed s.lines ++ pending)
  unique := p.unique
  set h hrd := h.set (ne_of_mem_workRegisters _ hrd).2
  retyped := Holds.retyped
  pushed hg h _ hc := h.pushed hg hc (by decide) rfl
  top := Holds.top
  popped hg h hc hrd := h.popped hg hc (ne_of_mem_workRegisters _ hrd).1 (ne_of_mem_workRegisters _ hrd).2
  loaded h _ hslot := by
    obtain ⟨b, hget, hkind, hvalue, hload⟩ := h.loaded .t0 hslot
    exact ⟨b, hget, hkind, hvalue.hasCell, hload⟩
  stored hg h hl _ := h.stored_cell hg hl
  divided hg h hl hlength := h.output ▸ Gets.checkDivZero hg hl hlength h.strings

theorem Pushed.tracked (h : p.Pushed f kept pending kind len k v s) :
    (p.tracker pending).Pushed f kept kind len k v s :=
  ⟨h.value.hasCell, h.holds⟩

end Pieces

section Values

variable {p : Process} {k k' m : Nat} {f : Frame} {kept : Nat → Word} {pending : List UInt8} {kind : SlotKind}
  {len : Option Nat} {span : Span} {P : State → Prop} {x : Run Value} {l : Label}

theorem follows_literal (hx : Triple P x (p.Pushed f kept pending kind len k) p.Halts) :
    Triple P (literal span x) (p.Pushed f kept pending kind len k) p.Halts := by
  apply Triple.literal hx (fun _ _ hs _ => hs)
  intro fn s e hs
  cases hs.value.isLiteral

theorem follows_beqz (hx : Triple P x (p.Pushed f kept pending .bool len k) p.Halts)
    (hc : CodeAt p.lines k (pop .t0 ++ [.beqz .t0 l]) k') (hm : p.lines[m]? = some (.label l)) :
    Triple P (condition span x) (fun b => p.At (if b then k' else m) (p.Holds f kept pending))
      p.Halts :=
  Tracker.follows_beqz (p := p.tracker pending) (hx.post fun _ _ hs => hs.tracked) hc hm

end Values

theorem follows_evaluate {p : Process} {cx : Context} {f : Frame} {n n' : Nat} {want : Option SlotKind}
    {e : Expr} {kind : SlotKind} {len : Option Nat} {c : List Line}
    (hexpr : ExprCode f n want e kind len c n') (hwords : e.onWords = true) (hwant : want ≠ some .float)
    {kept : Nat → Word} {pending : List UInt8} (hpending : newline ∉ pending) {k k' : Nat}
    (hc : CodeAt p.lines k c k') :
    Triple (p.At k (p.Holds f kept pending)) (evaluate cx e) (p.Pushed f kept pending kind len k')
      p.Halts := by
  -- Only the state tells that there are no chars: every slot with a name holds a word.
  apply Triple.assuming (p := ∀ name found, f.resolve? name = some found → found.2.kind ≠ .char)
  · rintro s ⟨core, hg, h⟩ name ⟨offset, slot⟩ hslot
    obtain ⟨b, -, -, hvalue, -⟩ := h.loaded .t0 hslot
    exact hvalue.ne_char
  intro hslots
  obtain ⟨hcells, hchar⟩ := e.onCells_of_onWords hslots hwords
  have hkind : kind ≠ .char := by
    intro heq
    rw [Expr.isChar_of_exprCode hexpr hcells heq] at hchar
    cases hchar
  apply (Tracker.follows_evaluate (p := p.tracker pending) hexpr hcells hwant (fun _ _ _ => trivial)
    (fun _ _ => trivial) hc).conseq (fun _ hs => hs)
  · exact fun v s hs => ⟨hs.value.hasWord hkind, hs.holds⟩
  · rintro (e | _) s hs
    · exact ⟨hs.1, pending, hpending, hs.2⟩
    · exact trivial

end Machine.Process

end Arbor
