import Arbor.Syntax.Span
import Arbor.Syntax.Operator

/-!
This module contains the syntax trees of the language. Every expression and every statement carries the
span it was written in.
-/

namespace Arbor

/--
A literal. A string holds the raw text between the quotes, with its escapes.
-/
inductive Literal where
  | int (n : Int64)
  | float (x : Float)
  | bool (b : Bool)
  | char (c : Char)
  | string (raw : String)
  deriving Repr, Inhabited

inductive Expr where
  | literal (span : Span) (value : Literal)
  | binary (span : Span) (op : BinaryOp) (left right : Expr)
  | unary (span : Span) (op : UnaryOp) (operand : Expr)
  | grouping (span : Span) (inner : Expr)
  | var (span : Span) (name : String)
  | assign (span : Span) (name : String) (op : AssignOp) (value : Expr)
  | step (span : Span) (name : String) (op : StepOp)
  | ternary (span : Span) (cond whenTrue whenFalse : Expr)
  | arrayLiteral (span : Span) (items : List Expr)
  | index (span : Span) (array : String) (position : Expr)
  | indexAssign (span : Span) (array : String) (position : Expr) (op : AssignOp) (value : Expr)
  | indexOf (span : Span) (array : String) (value : Expr)
  | length (span : Span) (array : String)
  | join (span : Span) (array : String)
  | call (span : Span) (callee : Expr) (args : List Expr)
  deriving Repr, Inhabited

inductive ArrayInit where
  | values (items : List Expr)
  | sized (length : Expr)
  | copyOf (source : String)
  deriving Repr, Inhabited

structure Param where
  ty : TypeName
  dims : UInt32
  name : String
  deriving Repr, DecidableEq, Inhabited

mutual

inductive Stmt where
  | varDecl (span : Span) (ty : TypeName) (name : String) (init : Option Expr)
  | arrayDecl (span : Span) (elem : TypeName) (dims : UInt32) (name : String) (init : ArrayInit)
  | funcDecl (span : Span) (returns : TypeName) (name : String) (params : List Param)
    (body : List Stmt)
  | expr (span : Span) (value : Expr)
  | print (span : Span) (args : List Expr)
  | block (span : Span) (body : List Stmt)
  | conditional (span : Span) (cond : Expr) (whenTrue : Stmt) (whenFalse : Option Stmt)
  | whileLoop (span : Span) (cond : Expr) (body : Stmt)
  | forLoop (span : Span) (init : Option Stmt) (cond : Option Expr) (update : Option Expr)
    (body : Stmt)
  | forEach (span : Span) (elem : TypeName) (name : String) (iterable : String) (body : Stmt)
  | switch (span : Span) (subject : Expr) (cases : List SwitchCase) (default : Option (List Stmt))
  | breakStmt (span : Span)
  | continueStmt (span : Span)
  | returnStmt (span : Span) (value : Option Expr)

inductive SwitchCase where
  | mk (span : Span) (value : Expr) (body : List Stmt)

end

structure Program where
  statements : List Stmt

namespace Expr

def span : Expr → Span
  | literal s _ | binary s .. | unary s .. | grouping s _ | var s _ | assign s .. | step s ..
  | ternary s .. | arrayLiteral s _ | index s .. | indexAssign s .. | indexOf s .. | length s _
  | join s _ | call s .. => s

end Expr

namespace Stmt

def span : Stmt → Span
  | varDecl s .. | arrayDecl s .. | funcDecl s .. | expr s _ | print s _ | block s _
  | conditional s .. | whileLoop s .. | forLoop s .. | forEach s .. | switch s .. | breakStmt s
  | continueStmt s | returnStmt s _ => s

/--
Whether a statement is a block. A branch or loop body that is none still gets a scope of its own.
-/
def isBlock : Stmt → Bool
  | block .. => true
  | _ => false

end Stmt

end Arbor
