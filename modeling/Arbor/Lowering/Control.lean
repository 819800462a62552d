import Arbor.Lowering.Expression

/-!
This module contains the lowering of structured control flow into labels and branches, given how the bodies are
lowered.
-/

namespace Arbor.Lowering

open Assembly

abbrev Body := Lower Unit

def lowerIf (cond : Expr) (whenTrue : Body) (whenFalse : Option Body) : Lower Unit := do
  let done ← freshLabel
  lowerCondition cond
  match whenFalse with
  | some whenFalse =>
    let otherwise ← freshLabel
    emit [.beqz .t0 otherwise]
    whenTrue
    emit [.j done, .label otherwise]
    whenFalse
  | none =>
    emit [.beqz .t0 done]
    whenTrue
  emit [.label done]

/--
Lower the body of a loop that is left at one label and goes on at the other.
-/
def loopBody (done next : Label) (level : Int) (body : Body) : Lower Unit :=
  withBreak ⟨done, level⟩ (withContinue ⟨next, level⟩ body)

def lowerWhile (cond : Expr) (body : Body) : Lower Unit := do
  let top ← freshLabel
  let done ← freshLabel
  emit [.label top]
  lowerCondition cond
  emit [.beqz .t0 done]
  loopBody done top (← level) body
  emit [.j top, .label done]

def loopTest (cond : Option Expr) (done : Label) : Lower Unit := do
  match cond with
  | none => pure ()
  | some cond =>
    lowerCondition cond
    emit [.beqz .t0 done]

def loopUpdate (update : Option Expr) : Lower Unit := do
  match update with
  | none => pure ()
  | some e =>
    let _ ← lowerExpr e
    discard e.span

/--
Lower a loop with an update. `continue` goes on right before the update, so that the update always runs before the
condition is tested again.
-/
def lowerFor (init : Option (Lower Unit)) (cond : Option Expr) (update : Option Expr) (body : Body) :
    Lower Unit := do
  let top ← freshLabel
  let next ← freshLabel
  let done ← freshLabel
  inScope do
    match init with
    | none => pure ()
    | some init => init
    emit [.label top]
    loopTest cond done
    loopBody done next (← level) body
    emit [.label next]
    loopUpdate update
    emit [.j top, .label done]

/--
Lower a loop over the elements of an array. The array and the index of the element are two slots with names of
their own, `#base` and `#idx`. The element is in an inner scope, which is left before the index moves on.
-/
def lowerForEach (span : Span) (declared : TypeName) (name iterable : String) (body : Body) :
    Lower Unit := do
  let elem ← arrayElement span iterable
  if declared ≠ .var ∧ declared.scalar? ≠ some elem then
    fail span (.typeMismatch elem.text declared.text)
  let top ← freshLabel
  let next ← freshLabel
  let done ← freshLabel
  inScope do
    let _ ← loadVariable span iterable
    nameTop span "#base"
    let _ ← pushWord 0 .int
    nameTop span "#idx"
    let outside ← level
    emit [.label top, .lw .t0 0 .sp, .lw .t1 wordBytes .sp, .lw .t2 (-wordBytes) .t1,
      .bge .t0 .t2 done, .slli .t0 .t0 2, .add .t0 .t1 .t0, .lw .t0 0 .t0]
    inScope do
      pushValue .t0 (.scalar elem)
      nameTop span name
      loopBody done next outside body
    emit [.label next, .lw .t0 0 .sp, .addi .t0 .t0 1, .sw .t0 0 .sp, .j top, .label done]

/-! Switches -/

def caseError (kind : SlotKind) : LoweringErrorKind :=
  .unsupported s!"case values of a {kind.text} switch must be {kind.text} literals"

def caseWord (kind : SlotKind) : Expr → Lower Int
  | .grouping _ inner => caseWord kind inner
  | .literal span v =>
    match kind, v with
    | .int, .int n => liftAt span (intWord n)
    | .char, .char c => return charCode c
    | .bool, .bool b => return boolWord b
    | _, _ => fail span (caseError kind)
  | .unary span op e =>
    match kind, op, e with
    | .int, .neg, .literal place (.int n) => return -(← liftAt place (intWord n))
    | _, _, _ => fail span (caseError kind)
  | e => fail e.span (caseError kind)

/--
Whether an expression is a string literal, not between parentheses.
-/
def isStringLiteral : Expr → Bool
  | .literal _ (.string _) => true
  | _ => false

def matchWords (kind : SlotKind) : List (Expr × Label) → Lower Unit
  | [] => return ()
  | (e, label) :: rest => do
    emit [.li .t1 (← caseWord kind e), .beq .t0 .t1 label]
    matchWords kind rest

def matchStrings : List (Expr × Label) → Lower Unit
  | [] => return ()
  | (e, label) :: rest => do
    if !isStringLiteral e then fail e.span (caseError .string)
    let _ ← lowerExpr e
    popValue e.span .a1
    emit [.mv .a0 .s1]
    callRoutine .strEquals
    emit [.bnez .a0 label]
    matchStrings rest

/--
Pop the subject of a switch and jump to the first case with an equal value.
-/
def matchCases (span : Span) (kind : SlotKind) (cases : List (Expr × Label)) : Lower Unit := do
  match kind with
  | .string =>
    popValue span .s1
    matchStrings cases
  | .int | .char | .bool =>
    popValue span .t0
    matchWords kind cases
  | kind => fail span (.unsupported s!"switch over {kind.text}")

def lowerBodies : List (Label × Body) → Lower Unit
  | [] => return ()
  | (label, body) :: rest => do
    emit [.label label]
    body
    lowerBodies rest

/--
Lower a switch. All comparisons come first; the bodies follow in source order, and the default comes last.
-/
def lowerSwitch (subject : Expr) (values : List Expr) (bodies : List Body) (default : Option Body) :
    Lower Unit := do
  let kind ← lowerExpr subject
  let done ← freshLabel
  let labels ← freshLabels values
  let defaults ← freshLabels default.toList
  matchCases subject.span kind (values.zip labels)
  emit [.j (defaults.headD done)]
  withBreak ⟨done, ← level⟩
    (lowerBodies (labels.zip bodies ++ defaults.zip default.toList))
  emit [.label done]

/-! Jumps -/

/--
Release what was pushed since a target was set up, and jump to it. The frame stays as it is: what follows the jump
is still inside the same scopes.
-/
def jumpTo (target : JumpTarget) : Lower Unit := do
  emit (release ((← level) - target.level))
  emit [.j target.label]

def lowerBreak (span : Span) : Lower Unit := do
  match (← targets).break? with
  | some target => jumpTo target
  | none => fail span .breakOutsideLoop

def lowerContinue (span : Span) : Lower Unit := do
  match (← targets).continue? with
  | some target => jumpTo target
  | none => fail span .continueOutsideLoop

end Arbor.Lowering
