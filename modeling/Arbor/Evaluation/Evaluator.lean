import Arbor.Evaluation.Array
import Arbor.Evaluation.Control
import Arbor.Value.Embedded

/-!
This module contains the evaluator: the run of every expression and every statement.

The evaluator is a recursion on the tree. Only two things are not below the node at hand: the next round of
a loop and the body of a called function. Both are bounded by fuel; a call runs its body with less.
-/

namespace Arbor.Evaluation

/--
What the evaluation of a tree depends on beside the state: the limit on arrays, the fuel of its loops, and
how the function of a call is run on its arguments.
-/
structure Context where
  maxArrayLength : Nat
  fuel : Nat
  invoke : Span → Closure → List Value → Run Value

mutual

def evaluate (cx : Context) : Expr → Run Value
  | .literal span v => liftAt span (Value.ofLiteral v)
  | .binary span op l r =>
    match op with
    | .and => do
      if ← condition l.span (evaluate cx l) then
        return .bool (← condition r.span (evaluate cx r))
      else return .bool false
    | .or => do
      if ← condition l.span (evaluate cx l) then return .bool true
      else return .bool (← condition r.span (evaluate cx r))
    | op => do
      let v ← literal l.span (evaluate cx l)
      let w ← literal r.span (evaluate cx r)
      liftAt span (Value.binary op v w)
  | .unary span op e => do liftAt span (Value.unary op (← literal e.span (evaluate cx e)))
  | .grouping _ e => evaluate cx e
  | .var span name => readVariable span name
  | .assign span name op e => do assign span name op (← literal e.span (evaluate cx e))
  | .step span name op => stepVariable span name op
  | .ternary _ c t f => do
    if ← condition c.span (evaluate cx c) then evaluate cx t else evaluate cx f
  | .arrayLiteral span items => do liftAt span (arrayOfValues (← evaluateAll cx literal items))
  | .index span array i => do
    let position ← liftAt i.span (indexOfValue (← literal i.span (evaluate cx i)))
    readElement span array position
  | .indexAssign span array i op e => do
    let position ← liftAt i.span (indexOfValue (← literal i.span (evaluate cx i)))
    writeElement span array position op (← literal e.span (evaluate cx e))
  | .indexOf span array e => do positionOf span array (← literal e.span (evaluate cx e))
  | .length span array => lengthOf span array
  | .join span array => joined span array
  | .call span callee args => do
    match ← evaluate cx callee with
    | .function f =>
      if f.arity ≠ args.length then raise span (.arityMismatch f.name f.arity args.length)
      let values ← evaluateAll cx literal args
      match f with
      | .embedded f => liftAt span (f.apply values)
      | .closure f => cx.invoke span f values
    | v =>
      match callee with
      | .var _ name => raise span (.notCallable name)
      | _ => raise span (.notCallable v.kind.text)

/--
The values of the expressions of a list in order, each passed through a check at its span.
-/
def evaluateAll (cx : Context) (check : Span → Run Value → Run Value) : List Expr → Run (List Value)
  | [] => return []
  | e :: es => do
    let v ← check e.span (evaluate cx e)
    return v :: (← evaluateAll cx check es)

end

def convertedElement (cx : Context) (elem : Kind) (e : Expr) : Run Value := do
  let v ← literal e.span (evaluate cx e)
  liftAt e.span (elementOf v elem)

mutual

/--
An element of an array declaration with the given number of brackets. An array literal stands for an inner
array where there are brackets left; any other expression must be convertible to the element kind.
-/
def element (cx : Context) (s : Scalar) (dims : Nat) : Expr → Run Value
  | .arrayLiteral span inner =>
    if 1 < dims then do
      return .array (.arrayOf (.scalar s) (dims - 2)) (← elements cx s (dims - 1) inner)
    else convertedElement cx (.arrayOf (.scalar s) (dims - 1)) (.arrayLiteral span inner)
  | e => convertedElement cx (.arrayOf (.scalar s) (dims - 1)) e

def elements (cx : Context) (s : Scalar) (dims : Nat) : List Expr → Run (List Value)
  | [] => return []
  | e :: rest => do
    let v ← element cx s dims e
    return v :: (← elements cx s dims rest)

end

def initialArray (cx : Context) (span : Span) (init : ArrayInit) (s : Scalar) (dims : Nat) :
    Run Value :=
  match init with
  | .values items => do
    return .array (.arrayOf (.scalar s) (dims - 1)) (← elements cx s dims items)
  | .sized length => do
    let n ← literal length.span (evaluate cx length)
    liftAt length.span (zeroArray cx.maxArrayLength (.arrayOf (.scalar s) (dims - 1)) n)
  | .copyOf source => copyArray span (.arrayOf (.scalar s) dims) source

def equalForSwitch (span : Span) (v w : Value) : Run Bool := do
  match ← liftAt span (Value.binary .eq v w) with
  | .bool b => return b
  | _ => return false

def checkElement (elem : Kind) (declared : TypeName) : Except EvalErrorKind Unit :=
  if declared = .var ∨ declared.scalar?.map Kind.scalar = some elem then .ok ()
  else .error (.typeMismatch elem.text declared.text)

mutual

def execute (cx : Context) : Stmt → Run Flow
  | .varDecl span ty name init => do
    let v? ← match init with
      | none => pure none
      | some e => some <$> evaluate cx e
    declareVariable span ty name v?
    return .normal
  | .arrayDecl span elem dims name init => do
    declareArray span elem dims name (initialArray cx span init)
    return .normal
  | .funcDecl span returns name params body => do
    declareFunction span returns name params body
    return .normal
  | .expr _ e => do
    let _ ← evaluate cx e
    return .normal
  | .print _ args => do
    printLine (← evaluateAll cx (fun _ x => x) args)
    return .normal
  | .block _ body => inScope (executeAll cx body)
  | .conditional _ c t f => do
    if ← condition c.span (evaluate cx c) then asBody t.isBlock (execute cx t)
    else match f with
      | none => return .normal
      | some f => asBody f.isBlock (execute cx f)
  | .whileLoop _ c body =>
    loop (condition c.span (evaluate cx c)) (asBody body.isBlock (execute cx body)) (return ())
      cx.fuel
  | .forLoop _ init c update body => inScope do
    match init with
    | none => pure ()
    | some init => let _ ← execute cx init
    loop
      (match c with
        | none => return true
        | some c => condition c.span (evaluate cx c))
      (asBody body.isBlock (execute cx body))
      (match update with
        | none => return ()
        | some e => do let _ ← evaluate cx e)
      cx.fuel
  | .forEach span declared name iterable body => do
    let (elem, items) ← readArray span iterable
    liftAt span (checkElement elem declared)
    forValues (fun v => inScope do
      declare span name elem v
      asBody body.isBlock (execute cx body)) items
  | .switch _ subject cases default => do
    let v ← literal subject.span (evaluate cx subject)
    let position? ← firstMatch v equalForSwitch (caseValues cx cases)
    fallThrough (bodiesFrom position? (caseBodies cx cases)
      (match default with
        | none => none
        | some body => some (inScope (executeAll cx body))))
  | .breakStmt span => return .breaking span
  | .continueStmt span => return .continuing span
  | .returnStmt span value => do
    match value with
    | none => return .returning none span
    | some e => return .returning (some (← literal e.span (evaluate cx e))) span

def executeAll (cx : Context) : List Stmt → Run Flow
  | [] => return .normal
  | s :: rest => andThen (execute cx s) (executeAll cx rest)

def caseValues (cx : Context) : List SwitchCase → List (Span × Run Value)
  | [] => []
  | .mk span value _ :: rest => (span, literal value.span (evaluate cx value)) :: caseValues cx rest

def caseBodies (cx : Context) : List SwitchCase → List (Run Flow)
  | [] => []
  | .mk _ _ body :: rest => inScope (executeAll cx body) :: caseBodies cx rest

end

def paramKind (p : Param) (v : Value) : Kind :=
  match p.ty.scalar? with
  | some s => .arrayOf (.scalar s) p.dims.toNat
  | none => v.kind

def bindArguments : List Param → List Value → Except EvalErrorKind (List (String × Kind × Value))
  | p :: ps, v :: vs => do
    let kind := paramKind p v
    let stored ← v.coerce kind
    return (p.name, kind, stored) :: (← bindArguments ps vs)
  | _, _ => .ok []

def declareAll (span : Span) : List (String × Kind × Value) → Run Unit
  | [] => return ()
  | (name, kind, v) :: rest => do
    declare span name kind v
    declareAll span rest

/--
What a call yields, given how the body of the function ended. A function with a type must return a value of
it; a `void` function yields null.
-/
def callResult (span : Span) (f : Closure) : Flow → Run Value
  | .breaking place => raise place .breakOutsideLoop
  | .continuing place => raise place .continueOutsideLoop
  | .normal =>
    if f.returns = .void then return .null else raise span (.missingReturn f.name)
  | .returning none place =>
    if f.returns = .void then return .null else raise place (.missingReturn f.name)
  | .returning (some v) place =>
    match f.returns, f.returns.scalar? with
    | _, some s => liftAt place (v.coerce (.scalar s))
    | .void, none => raise place (.typeMismatch TypeName.void.text v.kind.text)
    | _, none => return v

/--
Run a function on its arguments, unless too many calls are open already. The fuel bounds how deep calls
nest below this one.
-/
def invoke (config : EvaluatorConfig) : Nat → Span → Closure → List Value → Run Value
  | 0, _, _, _ => throw .outOfFuel
  | fuel + 1, span, f, args => do
    if config.maxCallDepth ≤ (← get).callDepth then raise span (.stackOverflow config.maxCallDepth)
    let params ← liftAt span (bindArguments f.params args)
    inCall f.scope do
      declareAll span params
      callResult span f
        (← executeAll ⟨config.maxArrayLength, fuel, invoke config fuel⟩ f.body)

def Context.of (config : EvaluatorConfig) (fuel : Nat) : Context :=
  ⟨config.maxArrayLength, fuel, Evaluation.invoke config fuel⟩

end Arbor.Evaluation
