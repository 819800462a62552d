import Arbor.Evaluation.Variable

/-!
This module contains the evaluation of arrays: building them, reading and writing their elements, and
declaring them. Arrays are values; copying one copies every element.
-/

namespace Arbor.Evaluation

def elementOf (v : Value) (elem : Kind) : Except EvalErrorKind Value :=
  match v.coerce elem with
  | .ok stored => .ok stored
  | .error _ => .error (.arrayTypeMismatch elem.text v.kind.text)

def checkedIndex (i : Int) (length : Nat) : Except EvalErrorKind Nat :=
  if 0 ≤ i ∧ i < length then .ok i.toNat else .error (.indexOutOfBounds i length)

def arrayOfValues (values : List Value) : Except EvalErrorKind Value :=
  match values with
  | [] => .error (.arrayTypeMismatch "at least one element" "an empty list")
  | first :: _ =>
    match values.find? fun v => v.kind != first.kind with
    | some odd => .error (.arrayTypeMismatch first.kind.text odd.kind.text)
    | none => .ok (.array first.kind values)

def zeroArray (limit : Nat) (elem : Kind) (length : Value) : Except EvalErrorKind Value :=
  match length with
  | .int n =>
    if n < 0 then .error (.typeMismatch "a non-negative int size" length.display)
    else if limit < n.toInt.toNat then .error (.arrayTooLarge n.toInt limit)
    else .ok (.array elem (List.replicate n.toInt.toNat (Value.zero elem)))
  | v => .error (.typeMismatch "a non-negative int size" v.display)

def readArray (span : Span) (name : String) : Run (Kind × List Value) := do
  match ← readVariable span name with
  | .array elem items => return (elem, items)
  | _ => raise span (.notAnArray name)

def copyArray (span : Span) (kind : Kind) (source : String) : Run Value := do
  match ← readVariable span source with
  | .array elem items =>
    if Kind.array elem = kind then return .array elem items
    else raise span (.arrayTypeMismatch kind.text (Kind.array elem).text)
  | _ => raise span (.notAnArray source)

def indexOfValue (v : Value) : Except EvalErrorKind Int :=
  match v with
  | .int n => .ok n.toInt
  | _ => .error (v.mismatch (.scalar .int))

def readElement (span : Span) (name : String) (i : Int) : Run Value := do
  let (_, items) ← readArray span name
  let slot ← liftAt span (checkedIndex i items.length)
  match items[slot]? with
  | some v => return v
  | none => raise span (.indexOutOfBounds i items.length)

/--
Store into an element of an array, through an operator if the assignment is compound. The result is the
value stored.
-/
def writeElement (span : Span) (name : String) (i : Int) (op : AssignOp) (v : Value) : Run Value := do
  let (elem, items) ← readArray span name
  let old ← readElement span name i
  let combined ← match op.combine? with
    | none => pure v
    | some op => liftAt span (Value.binary op old v)
  let stored ← liftAt span (elementOf combined elem)
  writeVariable span name (.array elem (items.set i.toNat stored))
  return stored

def positionOf (span : Span) (name : String) (v : Value) : Run Value := do
  let (_, items) ← readArray span name
  match items.findIdx? fun item => item.looseEq? v == some true with
  | some i => return .int (if i < 2 ^ 31 then Int32.ofNat i else -1)
  | none => return .int (-1)

def lengthOf (span : Span) (name : String) : Run Value := do
  let (_, items) ← readArray span name
  return .int (Int32.ofNat (min items.length (2 ^ 31 - 1)))

def joined (span : Span) (name : String) : Run Value := do
  let (_, items) ← readArray span name
  return .text (",".intercalate (items.map Value.display))

/--
The errors of a run on an array declaration, told apart: those that leave the name bound to null are handed
on as a failed check.
-/
def checkArray (x : Run Value) : Run (Except EvalErrorKind Value) := fun s =>
  match x s with
  | .ok v s => .ok (.ok v) s
  | .error (.error e) s =>
    if e.kind.leavesNull then .ok (.error e.kind) s else .error (.error e) s
  | .error .outOfFuel s => .error .outOfFuel s

/--
Declare an array, given the kind of its elements and how to compute it. An array of `var` or `void`
elements is refused before anything is computed.
-/
def declareArray (span : Span) (elem : TypeName) (dims : UInt32) (name : String)
    (build : Scalar → Nat → Run Value) : Run Unit := do
  match elem.scalar? with
  | none => raise span (.typeMismatch "an array element type" elem.text)
  | some s =>
    let dims := max dims.toNat 1
    let checked ← checkArray (build s dims)
    bindChecked span name (Kind.arrayOf (.scalar s) dims) checked

end Arbor.Evaluation
