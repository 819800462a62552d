import Arbor.Evaluation.Run

/-!
This module contains the control flow of statements, as combinators on the runs of their parts. A signal
ends what runs in sequence; a loop consumes the signals `break` and `continue` of its body, and a switch
consumes `break`.
-/

namespace Arbor.Evaluation

def andThen (first second : Run Flow) : Run Flow := do
  match ← first with
  | .normal => second
  | signal => return signal

/--
Run a body as often as the condition holds, with the update after every round. The fuel bounds the number
of rounds.
-/
def loop (cond : Run Bool) (body : Run Flow) (update : Run Unit) : Nat → Run Flow
  | 0 => throw .outOfFuel
  | fuel + 1 => do
    if ← cond then
      match ← body with
      | .breaking _ => return .normal
      | .returning value span => return .returning value span
      | .normal | .continuing _ =>
        update
        loop cond body update fuel
    else return .normal

def forValues (body : Value → Run Flow) : List Value → Run Flow
  | [] => return .normal
  | v :: vs => do
    match ← body v with
    | .breaking _ => return .normal
    | .returning value span => return .returning value span
    | .normal | .continuing _ => forValues body vs

/--
The position of the first case whose value equals the subject. Later values are not evaluated.
-/
def firstMatch (subject : Value) (equal : Span → Value → Value → Run Bool) :
    List (Span × Run Value) → Run (Option Nat)
  | [] => return none
  | (span, value) :: rest => do
    if ← equal span subject (← value) then return some 0
    else return (← firstMatch subject equal rest).map (· + 1)

def fallThrough : List (Run Flow) → Run Flow
  | [] => return .normal
  | body :: rest => do
    match ← body with
    | .normal => fallThrough rest
    | .breaking _ => return .normal
    | signal => return signal

/--
The bodies that a switch runs: from the matching case on if there is one, and the default always last.
-/
def bodiesFrom {α : Type} (position? : Option Nat) (cases : List α) (default? : Option α) : List α :=
  (match position? with
    | some i => cases.drop i
    | none => []) ++ default?.toList

/--
Run the body of a branch or a loop, which has a scope of its own also if it is not a block.
-/
def asBody (isBlock : Bool) (x : Run Flow) : Run Flow :=
  if isBlock then x else inScope x

end Arbor.Evaluation
