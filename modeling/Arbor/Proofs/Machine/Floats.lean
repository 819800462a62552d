import Arbor.Proofs.Machine.Listing

/-!
This module contains the machine with floats. A float is kept as its bits; how floats are computed with is left to a
unit of its own. It also contains the calls of routines: what a machine does from the first line of a routine on until
the routine returns.
-/

namespace Arbor.Machine

open Assembly

/--
What floats are computed with, as functions on their bits, and the text that a float is printed as.
-/
structure FloatUnit where
  operation : FloatOp → Word → Word → Word
  move : FloatMoveOp → Word → Word
  comparison : FloatCompareOp → Word → Word → Bool
  ofInt : Word → Word
  toInt : Word → Word
  text : Word → List UInt8

structure FloatCore where
  core : Core
  floats : FloatRegister → Word

structure FloatHart where
  state : FloatCore
  pc : Nat

namespace FloatCore

def get (s : FloatCore) (r : Register) : Word :=
  s.core.get r

def set (s : FloatCore) (rd : Register) (w : Word) : FloatCore :=
  { s with core := s.core.set rd w }

def setFloat (s : FloatCore) (fd : FloatRegister) (w : Word) : FloatCore :=
  { s with floats := fun r => if r = fd then w else s.floats r }

end FloatCore

def floatEffect (u : FloatUnit) (s : FloatCore) : Line → Option FloatCore
  | .instruction (.float op fd fs₁ fs₂) => some (s.setFloat fd (u.operation op (s.floats fs₁) (s.floats fs₂)))
  | .instruction (.floatMove op fd fs) => some (s.setFloat fd (u.move op (s.floats fs)))
  | .instruction (.floatCompare op rd fs₁ fs₂) =>
    some (s.set rd (if u.comparison op (s.floats fs₁) (s.floats fs₂) then 1 else 0))
  | .instruction (.floatOfBits fd rs) => some (s.setFloat fd (s.get rs))
  | .instruction (.bitsOfFloat rd fs) => some (s.set rd (s.floats fs))
  | .instruction (.floatOfInt fd rs) => some (s.setFloat fd (u.ofInt (s.get rs)))
  | .instruction (.intOfFloat rd fs) => some (s.set rd (u.toInt (s.floats fs)))
  | .instruction .ecall =>
    if s.get .a7 = 2 then some { s with core := s.core.write (u.text (s.floats .fa0)) } else none
  | _ => none

def runFloatLine (u : FloatUnit) (L : Layout) (s : FloatCore) (l : Line) : Option FloatCore :=
  (floatEffect u s l).or ((runLine L s.core l).map fun core => ⟨core, s.floats⟩)

/--
The machine after a step, if it goes on. What has no effect on floats is done as by the machine without them.
-/
def next? (u : FloatUnit) (L : Layout) (lines : List Line) (m : FloatHart) : Option FloatHart :=
  match lines[m.pc]?.bind (floatEffect u m.state) with
  | some s => some ⟨s, m.pc + 1⟩
  | none =>
    match step L lines ⟨m.state.core, m.pc⟩ with
    | .running m' => some ⟨⟨m'.core, m.state.floats⟩, m'.pc⟩
    | _ => none

/--
A call goes on for a number of steps until it returns, and has a property all along. The `ret` of a call that it makes
does not end it.
-/
inductive Returns (u : FloatUnit) (L : Layout) (lines : List Line) (ok : FloatHart → Prop) :
    Nat → FloatHart → FloatHart → Prop where
  | ret {m f : FloatHart} :
    ok m → lines[m.pc]? = some .ret → next? u L lines m = some f → Returns u L lines ok 1 m f
  | step {n : Nat} {m m' f : FloatHart} {l : Line} :
    ok m → lines[m.pc]? = some l → l ≠ .ret → (∀ t, l ≠ .jal t) → next? u L lines m = some m' →
    Returns u L lines ok n m' f → Returns u L lines ok (n + 1) m f
  | call {n n' : Nat} {m m₁ m₂ f : FloatHart} {t : Label} :
    ok m → lines[m.pc]? = some (.jal t) → next? u L lines m = some m₁ →
    Returns u L lines ok n m₁ m₂ → Returns u L lines ok n' m₂ f →
    Returns u L lines ok (n + n' + 1) m f

section Steps

variable {u : FloatUnit} {L : Layout} {lines : List Line} {s s' : FloatCore} {k : Nat} {l : Line}

theorem next?_of_runFloatLine (hline : lines[k]? = some l) (hrun : runFloatLine u L s l = some s') :
    next? u L lines ⟨s, k⟩ = some ⟨s', k + 1⟩ := by
  unfold next?
  rw [hline, Option.bind_some]
  unfold runFloatLine at hrun
  cases heffect : floatEffect u s l with
  | some s₁ =>
    rw [heffect, Option.some_or] at hrun
    cases hrun
    rfl
  | none =>
    rw [heffect, Option.none_or, Option.map_eq_some_iff] at hrun
    obtain ⟨core, hcore, rfl⟩ := hrun
    have hstep : step L lines ⟨s.core, k⟩ = .running ⟨core, k + 1⟩ := by
      cases l with
      | instruction i => exact step_instruction hline hcore
      | label =>
        cases hcore
        exact step_label hline
      | comment =>
        cases hcore
        exact step_comment hline
    rw [hstep]

theorem next?_eq_step (hline : lines[k]? = some l) (heffect : floatEffect u s l = none) :
    next? u L lines ⟨s, k⟩ = match step L lines ⟨s.core, k⟩ with
      | .running m' => some ⟨⟨m'.core, s.floats⟩, m'.pc⟩
      | _ => none := by
  unfold next?
  rw [hline, Option.bind_some, heffect]

end Steps

end Arbor.Machine
