import Arbor.Syntax.Operator

/-!
This module contains the kinds of values, as a binding records them and as messages name them.
-/

namespace Arbor

inductive Scalar where
  | int
  | float
  | bool
  | char
  | string
  deriving Repr, DecidableEq, Inhabited

inductive Kind where
  | scalar (s : Scalar)
  | array (elem : Kind)
  | null
  | function
  deriving Repr, DecidableEq, Inhabited

namespace Scalar

def text : Scalar → String
  | int => "int"
  | float => "float"
  | bool => "bool"
  | char => "char"
  | string => "string"

end Scalar

def TypeName.scalar? : TypeName → Option Scalar
  | int => some .int
  | float => some .float
  | bool => some .bool
  | char => some .char
  | string => some .string
  | var | void => none

namespace Kind

def arrayOf (elem : Kind) (dims : Nat) : Kind :=
  dims.repeat .array elem

def innermost : Kind → Kind
  | array elem => elem.innermost
  | k => k

def text : Kind → String
  | scalar s => s.text
  | array elem => elem.text ++ "[]"
  | null => "null"
  | function => "function"

end Kind

end Arbor
