import Arbor.Environment
import Arbor.Config

/-!
This module contains the runs of an evaluation: computations that change the state of the evaluator, and end
with a result, with an error, or because their fuel is used up. Running out of fuel is not an error of the
program; it says that the bound given to loops and calls was too small to tell.

A run that fails still has a state, so nothing that was printed, declared or captured before is lost.
-/

namespace Arbor.Evaluation

/--
What a run changes: the scopes, the printed lines, and how many calls are open.
-/
structure State where
  env : Environment
  lines : Array String
  callDepth : Nat

inductive Halt where
  | error (e : EvalError)
  | outOfFuel

abbrev Run := EStateM Halt State

/--
How a statement ended: at its end, or with a signal for the construct around it that names the statement
which gave it.
-/
inductive Flow where
  | normal
  | breaking (span : Span)
  | continuing (span : Span)
  | returning (value : Option Value) (span : Span)

def raise {α : Type} (span : Span) (e : EvalErrorKind) : Run α :=
  throw (.error ⟨e, span⟩)

def liftAt {α : Type} (span : Span) : Except EvalErrorKind α → Run α
  | .ok a => pure a
  | .error e => raise span e

def environment : Run Environment :=
  return (← get).env

def setEnvironment (env : Environment) : Run Unit :=
  modify fun s => { s with env }

/--
Run inside a new scope, which is left whether the run succeeds or not.
-/
def inScope {α : Type} (x : Run α) : Run α := fun s =>
  match x { s with env := s.env.push } with
  | .ok a s => .ok a { s with env := s.env.pop }
  | .error e s => .error e { s with env := s.env.pop }

/--
Run as a call: in a scope inside the one of the function, and one call deeper. The caller's scope and depth
are restored whether the run succeeds or not.
-/
def inCall {α : Type} (scope : Nat) (x : Run α) : Run α := fun s =>
  let caller := s.env.current
  match x { s with env := s.env.enter scope, callDepth := s.callDepth + 1 } with
  | .ok a s => .ok a { s with env := s.env.leave caller, callDepth := s.callDepth - 1 }
  | .error e s => .error e { s with env := s.env.leave caller, callDepth := s.callDepth - 1 }

/--
The value of an expression that may not be a function.
-/
def literal (span : Span) (x : Run Value) : Run Value := do
  match ← x with
  | .function f => raise span (.notLiteral s!"function '{f.name}'")
  | v => return v

def condition (span : Span) (x : Run Value) : Run Bool := do
  match ← literal span x with
  | .bool b => return b
  | v => raise span (v.mismatch (.scalar .bool))

end Arbor.Evaluation
