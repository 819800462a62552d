import Arbor.Value.Basic

/-!
This module contains the operators on values: arithmetic, comparison, concatenation and the two notions of
equality. Ints are 32 bits wide and wrap; an int meeting a float becomes one.
-/

namespace Arbor.Value

inductive Number where
  | int (n : Int32)
  | float (x : Float)

def number? : Value → Option Number
  | int n => some (.int n)
  | float x => some (.float x)
  | _ => none

def Number.toFloat : Number → Float
  | .int n => n.toFloat
  | .float x => x

def Number.toValue : Number → Value
  | .int n => .int n
  | .float x => .float x

def asText? : Value → Option String
  | text s => some s
  | char c => some c.toString
  | _ => none

def intArith (op : BinaryOp) (a b : Int32) : Except EvalErrorKind Int32 :=
  match op with
  | .add => .ok (a + b)
  | .sub => .ok (a - b)
  | .mul => .ok (a * b)
  | .div => if b = 0 then .error .divisionByZero else .ok (a / b)
  | _ => if b = 0 then .error .divisionByZero else .ok (a % b)

def floatArith (op : BinaryOp) (a b : Float) : Float :=
  match op with
  | .add => a + b
  | .sub => a - b
  | .mul => a * b
  | .div => a / b
  | _ => Decimal.remainder a b

def arith (op : BinaryOp) : Number → Number → Except EvalErrorKind Number
  | .int a, .int b => (intArith op a b).map .int
  | a, b => .ok (.float (floatArith op a.toFloat b.toFloat))

def floatCompare (op : BinaryOp) (a b : Float) : Bool :=
  match op with
  | .lt => a < b
  | .gt => b < a
  | .le => a ≤ b
  | _ => b ≤ a

def intCompare (op : BinaryOp) (a b : Int32) : Bool :=
  match op with
  | .lt => a < b
  | .gt => b < a
  | .le => a ≤ b
  | _ => b ≤ a

/--
A comparison of numbers, as floats if one of them is a float. Every int is a float, so it makes no difference which
of the two comparisons ints are given to.
-/
def numberCompare (op : BinaryOp) : Number → Number → Bool
  | .int a, .int b => intCompare op a b
  | a, b => floatCompare op a.toFloat b.toFloat

def charCompare (op : BinaryOp) (a b : Char) : Bool :=
  match op with
  | .lt => a < b
  | .gt => b < a
  | .le => a ≤ b
  | _ => b ≤ a

/--
The equality of the operator `==`: numbers by their value, booleans, and texts with a char counting as a
string of one. Other pairs cannot be compared.
-/
def looseEq? (v w : Value) : Option Bool :=
  match v, w with
  | int a, int b => some (a == b)
  | bool a, bool b => some (a == b)
  | char a, char b => some (a == b)
  | _, _ =>
    match v.number?, w.number? with
    | some a, some b => some (a.toFloat == b.toFloat)
    | _, _ =>
      match v.asText?, w.asText? with
      | some a, some b => some (a == b)
      | _, _ => none

mutual

/--
Equality of values of the same kind, part by part. Functions have no equality that a program could observe,
and are equal to nothing.
-/
def strictEq : Value → Value → Bool
  | int a, int b => a == b
  | float a, float b => a == b
  | bool a, bool b => a == b
  | char a, char b => a == b
  | text a, text b => a == b
  | array ea a, array eb b => ea == eb && strictEqAll a b
  | null, null => true
  | _, _ => false

def strictEqAll : List Value → List Value → Bool
  | [], [] => true
  | v :: vs, w :: ws => strictEq v w && strictEqAll vs ws
  | _, _ => false

end

theorem kind_eq_of_strictEq {v w : Value} (h : v.strictEq w = true) : v.kind = w.kind := by
  unfold strictEq at h
  split at h
  case h_6 =>
    rw [Bool.and_eq_true, beq_iff_eq] at h
    rw [kind, kind, h.1]
  all_goals first | rfl | cases h

/--
On values of one kind that the operator `==` compares, the two notions of equality are the same.
-/
theorem strictEq_of_looseEq? {v w : Value} {b : Bool} (hkind : v.kind = w.kind) (h : v.looseEq? w = some b) :
    v.strictEq w = b := by
  cases v <;> cases w <;> cases hkind
  all_goals simp_all [looseEq?, strictEq, number?, asText?, Number.toFloat]

def binary (op : BinaryOp) (v w : Value) : Except EvalErrorKind Value :=
  let invalid : Except EvalErrorKind Value :=
    .error (.invalidOperands op.symbol v.kind.text w.kind.text)
  let onNumbers (f : Number → Number → Except EvalErrorKind Value) : Except EvalErrorKind Value :=
    match v.number?, w.number? with
    | some a, some b => f a b
    | _, _ => invalid
  match op with
  | .add =>
    match v.asText?, w.asText? with
    | some a, some b => .ok (text (a ++ b))
    | _, _ => onNumbers fun a b => (arith op a b).map Number.toValue
  | .sub | .mul | .div | .mod => onNumbers fun a b => (arith op a b).map Number.toValue
  | .lt | .gt | .le | .ge =>
    match v, w with
    | char a, char b => .ok (bool (charCompare op a b))
    | _, _ => onNumbers fun a b => .ok (bool (numberCompare op a b))
  | .eq =>
    match looseEq? v w with
    | some b => .ok (bool b)
    | none => invalid
  | .ne =>
    match looseEq? v w with
    | some b => .ok (bool !b)
    | none => invalid
  | .and =>
    match v, w with
    | bool a, bool b => .ok (bool (a && b))
    | _, _ => invalid
  | .or =>
    match v, w with
    | bool a, bool b => .ok (bool (a || b))
    | _, _ => invalid

def unary (op : UnaryOp) (v : Value) : Except EvalErrorKind Value :=
  match op, v with
  | .neg, int n => .ok (int (-n))
  | .neg, float x => .ok (float (-x))
  | .not, bool b => .ok (bool !b)
  | _, _ => .error (.invalidOperand op.symbol v.kind.text)

def step (op : StepOp) (v : Value) : Except EvalErrorKind Value :=
  match v with
  | int n => .ok (int (n + Int32.ofInt op.delta))
  | float x => .ok (float (x + Float.ofInt op.delta))
  | _ => .error (.invalidOperand op.symbol v.kind.text)

end Arbor.Value
