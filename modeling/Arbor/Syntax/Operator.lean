/-!
This module contains the operators of the language and the types that a declaration can name.
-/

namespace Arbor

/--
A type as a declaration writes it. `var` is inferred from the value, and `void` is for functions that
return none.
-/
inductive TypeName where
  | int
  | float
  | bool
  | char
  | string
  | var
  | void
  deriving Repr, DecidableEq, Inhabited

inductive BinaryOp where
  | add
  | sub
  | mul
  | div
  | mod
  | lt
  | gt
  | le
  | ge
  | eq
  | ne
  | and
  | or
  deriving Repr, DecidableEq, Inhabited

inductive OperatorClass where
  | arithmetic
  | relational
  | equality
  | logical
  deriving Repr, DecidableEq

inductive UnaryOp where
  | neg
  | not
  deriving Repr, DecidableEq, Inhabited

inductive AssignOp where
  | set
  | add
  | sub
  deriving Repr, DecidableEq, Inhabited

inductive StepOp where
  | up
  | down
  deriving Repr, DecidableEq, Inhabited

namespace TypeName

def text : TypeName → String
  | int => "int"
  | float => "float"
  | bool => "bool"
  | char => "char"
  | string => "string"
  | var => "var"
  | void => "void"

def ofText? : String → Option TypeName
  | "int" => some int
  | "float" => some float
  | "bool" => some bool
  | "char" => some char
  | "string" => some string
  | "var" => some var
  | "void" => some void
  | _ => none

end TypeName

namespace BinaryOp

def symbol : BinaryOp → String
  | add => "+"
  | sub => "-"
  | mul => "*"
  | div => "/"
  | mod => "%"
  | lt => "<"
  | gt => ">"
  | le => "<="
  | ge => ">="
  | eq => "=="
  | ne => "!="
  | and => "&&"
  | or => "||"

def ofSymbol? : String → Option BinaryOp
  | "+" => some add
  | "-" => some sub
  | "*" => some mul
  | "/" => some div
  | "%" => some mod
  | "<" => some lt
  | ">" => some gt
  | "<=" => some le
  | ">=" => some ge
  | "==" => some eq
  | "!=" => some ne
  | "&&" => some and
  | "||" => some or
  | _ => none

def cls : BinaryOp → OperatorClass
  | add | sub | mul | div | mod => .arithmetic
  | lt | gt | le | ge => .relational
  | eq | ne => .equality
  | and | or => .logical

end BinaryOp

namespace UnaryOp

def symbol : UnaryOp → String
  | neg => "-"
  | not => "!"

def ofSymbol? : String → Option UnaryOp
  | "-" => some neg
  | "!" => some not
  | _ => none

end UnaryOp

namespace AssignOp

def symbol : AssignOp → String
  | set => "="
  | add => "+="
  | sub => "-="

def ofSymbol? : String → Option AssignOp
  | "=" => some set
  | "+=" => some add
  | "-=" => some sub
  | _ => none

def combine? : AssignOp → Option BinaryOp
  | set => none
  | add => some .add
  | sub => some .sub

end AssignOp

namespace StepOp

def symbol : StepOp → String
  | up => "++"
  | down => "--"

def ofSymbol? : String → Option StepOp
  | "++" => some up
  | "--" => some down
  | _ => none

def delta : StepOp → Int
  | up => 1
  | down => -1

end StepOp

@[simp]
theorem TypeName.ofText?_text (t : TypeName) : ofText? t.text = some t := by
  cases t <;> rfl

@[simp]
theorem BinaryOp.ofSymbol?_symbol (op : BinaryOp) : ofSymbol? op.symbol = some op := by
  cases op <;> rfl

@[simp]
theorem UnaryOp.ofSymbol?_symbol (op : UnaryOp) : ofSymbol? op.symbol = some op := by
  cases op <;> rfl

@[simp]
theorem AssignOp.ofSymbol?_symbol (op : AssignOp) : ofSymbol? op.symbol = some op := by
  cases op <;> rfl

@[simp]
theorem StepOp.ofSymbol?_symbol (op : StepOp) : ofSymbol? op.symbol = some op := by
  cases op <;> rfl

end Arbor
