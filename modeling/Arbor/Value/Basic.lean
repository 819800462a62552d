import Arbor.Syntax.Tree
import Arbor.Value.Kind
import Arbor.Value.Error
import Arbor.Decimal.Text
import Arbor.Text.Escape

/-!
This module contains the values that expressions evaluate to, their kinds and texts, and the conversion of
a value to a declared kind.
-/

namespace Arbor

inductive Embedded where
  | parseInt
  | parseFloat
  | toText
  | toLowerCase
  | toUpperCase
  | typeOf
  deriving Repr, DecidableEq

structure Closure where
  returns : TypeName
  name : String
  params : List Param
  body : List Stmt
  scope : Nat

inductive Callable where
  | embedded (f : Embedded)
  | closure (f : Closure)

/--
A value. An array owns its elements and records their kind; null is what a failed declaration or assignment
leaves behind.
-/
inductive Value where
  | int (n : Int32)
  | float (x : Float)
  | bool (b : Bool)
  | char (c : Char)
  | text (s : String)
  | array (elem : Kind) (items : List Value)
  | null
  | function (f : Callable)

instance : Inhabited Value := ⟨.null⟩

namespace Embedded

def all : List Embedded :=
  [parseInt, parseFloat, toText, toLowerCase, toUpperCase, typeOf]

def name : Embedded → String
  | parseInt => "parseInt"
  | parseFloat => "parsefloat"
  | toText => "toString"
  | toLowerCase => "toLowerCase"
  | toUpperCase => "toUpperCase"
  | typeOf => "typeof"

def ofName? (name : String) : Option Embedded :=
  all.find? fun f => f.name == name

end Embedded

namespace Callable

def name : Callable → String
  | embedded f => f.name
  | closure f => f.name

def arity : Callable → Nat
  | embedded _ => 1
  | closure f => f.params.length

end Callable

namespace Value

def kind : Value → Kind
  | int _ => .scalar .int
  | float _ => .scalar .float
  | bool _ => .scalar .bool
  | char _ => .scalar .char
  | text _ => .scalar .string
  | array elem _ => .array elem
  | null => .null
  | function _ => .function

/--
Everything but a function is a literal value.
-/
def isLiteral : Value → Bool
  | function _ => false
  | _ => true

def isNull : Value → Bool
  | null => true
  | _ => false

mutual

def display : Value → String
  | int n => toString n.toInt
  | float x => Decimal.FloatForm.printed.text x
  | bool b => if b then "true" else "false"
  | char c => c.toString
  | text s => s
  | array _ items => "[" ++ ", ".intercalate (displayAll items) ++ "]"
  | null => "null"
  | function f => "<fn " ++ f.name ++ ">"

def displayAll : List Value → List String
  | [] => []
  | v :: vs => v.display :: displayAll vs

end

theorem displayAll_eq (items : List Value) : displayAll items = items.map display := by
  induction items with
  | nil => rfl
  | cons v rest ih => rw [displayAll, ih, List.map_cons]

def zeroScalar : Scalar → Value
  | .int => int 0
  | .float => float 0.0
  | .bool => bool false
  | .char => char '\x00'
  | .string => text ""

/--
The value of a kind declared without one: zero, empty, or null where the kind has no values to declare.
-/
def zero : Kind → Value
  | .scalar s => zeroScalar s
  | .array elem => array elem []
  | .null | .function => null

def mismatch (kind : Kind) (v : Value) : EvalErrorKind :=
  .typeMismatch kind.text v.kind.text

/--
Convert a value to a declared kind. An int widens to a float and a text of one character narrows to a char;
any other value must be of the kind already.
-/
def coerce (v : Value) (kind : Kind) : Except EvalErrorKind Value :=
  match kind, v with
  | .scalar .int, int _ | .scalar .float, float _ | .scalar .bool, bool _ | .scalar .char, char _
  | .scalar .string, text _ => .ok v
  | .scalar .float, int n => .ok (float n.toFloat)
  | .scalar .char, text s => match s.toList with
    | [c] => .ok (char c)
    | _ => .error (mismatch kind v)
  | .array expected, array elem _ => if elem = expected then .ok v else .error (mismatch kind v)
  | _, _ => .error (mismatch kind v)

/--
The value of a literal. An int must fit 32 bits, and the escapes of a string are read here.
-/
def ofLiteral : Literal → Except EvalErrorKind Value
  | .int n =>
    if -2 ^ 31 ≤ n.toInt ∧ n.toInt < 2 ^ 31 then .ok (int (Int32.ofInt n.toInt))
    else .error (.integerOutOfRange n.toInt)
  | .float x => .ok (float x)
  | .bool b => .ok (bool b)
  | .char c => .ok (char c)
  | .string raw => .ok (text (Text.unescape raw))

end Value

end Arbor
