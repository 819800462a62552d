import Arbor.Evaluation.Run
import Arbor.Value.Operator

/-!
This module contains the evaluation of variables: declaring, reading, assigning and stepping them. A
declaration or an assignment whose value does not fit the kind leaves null behind and fails.
-/

namespace Arbor.Evaluation

def readVariable (span : Span) (name : String) : Run Value := do
  return (← liftAt span ((← environment).get name)).value

def writeVariable (span : Span) (name : String) (v : Value) : Run Unit := do
  setEnvironment (← liftAt span ((← environment).set name v))

def declare (span : Span) (name : String) (kind : Kind) (v : Value) : Run Unit := do
  setEnvironment (← liftAt span ((← environment).declare name kind v))

/--
Bind a name to a checked value. If the check failed the name is bound to null, and the failure is raised
unless the name could not be bound at all.
-/
def bindChecked (span : Span) (name : String) (kind : Kind) (checked : Except EvalErrorKind Value) :
    Run Unit := do
  match checked with
  | .ok v => declare span name kind v
  | .error e =>
    declare span name kind .null
    raise span e

/--
The kind that a declaration gives its variable, and its value if that fits. A `var` takes the kind of its
value, which must be a literal other than null; a `void` variable cannot be.
-/
def checkDeclared (ty : TypeName) (value? : Option Value) : Kind × Except EvalErrorKind Value :=
  match ty, ty.scalar? with
  | _, some s =>
    (.scalar s, match value? with
      | some v => v.coerce (.scalar s)
      | none => .ok (Value.zeroScalar s))
  | .void, none => (.null, .error (.typeMismatch "a variable type" TypeName.void.text))
  | _, none =>
    match value? with
    | none => (.null, .error (.typeMismatch "a literal value" "no initializer"))
    | some v =>
      if v.isLiteral && !v.isNull then (v.kind, .ok v)
      else (.null, .error (.typeMismatch "a literal value" v.kind.text))

def declareVariable (span : Span) (ty : TypeName) (name : String) (value? : Option Value) : Run Unit :=
  let (kind, checked) := checkDeclared ty value?
  bindChecked span name kind checked

def assign (span : Span) (name : String) (op : AssignOp) (v : Value) : Run Value := do
  let b ← liftAt span ((← environment).get name)
  let combined ← match op.combine? with
    | none => pure v
    | some op => liftAt span (Value.binary op b.value v)
  match combined.coerce b.kind with
  | .ok stored =>
    writeVariable span name stored
    return stored
  | .error e =>
    writeVariable span name .null
    raise span e

def stepVariable (span : Span) (name : String) (op : StepOp) : Run Value := do
  let stepped ← liftAt span (Value.step op (← readVariable span name))
  writeVariable span name stepped
  return stepped

/--
Declare a function with the scope it is declared in, which is pinned even if the name is taken.
-/
def declareFunction (span : Span) (returns : TypeName) (name : String) (params : List Param)
    (body : List Stmt) : Run Unit := do
  let (scope, env) := (← environment).capture
  setEnvironment env
  declare span name .function (.function (.closure ⟨returns, name, params, body, scope⟩))

def printLine (values : List Value) : Run Unit :=
  modify fun s => { s with lines := s.lines.push (" ".intercalate (values.map Value.display)) }

end Arbor.Evaluation
