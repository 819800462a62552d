import Arbor.Syntax.Tree
import Arbor.Text.Quoted
import Arbor.Decimal.Text

/-!
This module contains the outline of a syntax tree: every node by name with its parts indented below it, one
to a line.
-/

namespace Arbor

inductive Outline where
  | leaf (text : String)
  | wrap (name : String) (part : Outline)
  | record (name : String) (fields : List (String × Outline))
  | list (parts : List Outline)

namespace Outline

def indent (depth : Nat) : String :=
  String.ofList (List.replicate (4 * depth) ' ')

mutual

def render (depth : Nat) : Outline → String
  | .leaf text => text
  | .wrap name part =>
    name ++ "(\n" ++ indent (depth + 1) ++ part.render (depth + 1) ++ ",\n" ++ indent depth ++ ")"
  | .record name fields =>
    name ++ " \x7b\n" ++ renderFields (depth + 1) fields ++ indent depth ++ "\x7d"
  | .list [] => "[]"
  | .list parts => "[\n" ++ renderParts (depth + 1) parts ++ indent depth ++ "]"

def renderParts (depth : Nat) : List Outline → String
  | [] => ""
  | part :: parts => indent depth ++ part.render depth ++ ",\n" ++ renderParts depth parts

def renderFields (depth : Nat) : List (String × Outline) → String
  | [] => ""
  | (name, part) :: fields =>
    indent depth ++ name ++ ": " ++ part.render depth ++ ",\n" ++ renderFields depth fields

end

def ofString (s : String) : Outline :=
  .leaf (Text.quoted s)

def ofNat (n : Nat) : Outline :=
  .leaf (toString n)

def ofOption : Option Outline → Outline
  | none => .leaf "None"
  | some part => .wrap "Some" part

end Outline

def Position.outline (p : Position) : Outline :=
  .record "Position" [("line", .ofNat p.line.toNat), ("column", .ofNat p.column.toNat),
    ("offset", .ofNat p.offset.toNat)]

def Span.outline (s : Span) : Outline :=
  .record "Span" [("file", .ofString s.file), ("start", s.start.outline), ("end", s.stop.outline)]

def TypeName.outline (t : TypeName) : Outline :=
  .leaf t.text.capitalize

def BinaryOp.outline : BinaryOp → Outline
  | add => .leaf "Add"
  | sub => .leaf "Sub"
  | mul => .leaf "Mul"
  | div => .leaf "Div"
  | mod => .leaf "Mod"
  | lt => .leaf "Lt"
  | gt => .leaf "Gt"
  | le => .leaf "Lte"
  | ge => .leaf "Gte"
  | eq => .leaf "Eq"
  | ne => .leaf "Neq"
  | and => .leaf "And"
  | or => .leaf "Or"

def UnaryOp.outline : UnaryOp → Outline
  | neg => .leaf "Neg"
  | not => .leaf "Not"

def AssignOp.outline : AssignOp → Outline
  | set => .leaf "Assign"
  | add => .leaf "AddAssign"
  | sub => .leaf "SubAssign"

def StepOp.outline : StepOp → Outline
  | up => .leaf "Inc"
  | down => .leaf "Dec"

def Literal.outline : Literal → Outline
  | .int n => .wrap "Int" (.leaf (toString n.toInt))
  | .float x => .wrap "Float" (.leaf (Decimal.FloatForm.marked.text x))
  | .bool b => .wrap "Bool" (.leaf (if b then "true" else "false"))
  | .char c => .wrap "Char" (.leaf (Text.quotedChar c))
  | .string raw => .wrap "Str" (.ofString raw)

def exprOutline (span : Span) (kind : Outline) : Outline :=
  .record "Expr" [("kind", kind), ("span", span.outline)]

mutual

def Expr.outline : Expr → Outline
  | .literal s v => exprOutline s (.wrap "Literal" v.outline)
  | .binary s op l r =>
    exprOutline s (.record "Binary"
      [("op", op.outline), ("left", l.outline), ("right", r.outline)])
  | .unary s op e => exprOutline s (.record "Unary" [("op", op.outline), ("operand", e.outline)])
  | .grouping s e => exprOutline s (.wrap "Grouping" e.outline)
  | .var s name => exprOutline s (.wrap "Variable" (.ofString name))
  | .assign s name op e =>
    exprOutline s (.record "Assign"
      [("name", .ofString name), ("op", op.outline), ("value", e.outline)])
  | .step s name op =>
    exprOutline s (.record "Increment" [("name", .ofString name), ("op", op.outline)])
  | .ternary s c t f =>
    exprOutline s (.record "Ternary"
      [("cond", c.outline), ("then_expr", t.outline), ("else_expr", f.outline)])
  | .arrayLiteral s items => exprOutline s (.wrap "ArrayLiteral" (.list (exprOutlines items)))
  | .index s array i =>
    exprOutline s (.record "Index" [("array", .ofString array), ("index", i.outline)])
  | .indexAssign s array i op e =>
    exprOutline s (.record "IndexAssign"
      [("array", .ofString array), ("index", i.outline), ("op", op.outline), ("value", e.outline)])
  | .indexOf s array e =>
    exprOutline s (.record "IndexOf" [("array", .ofString array), ("value", e.outline)])
  | .length s array => exprOutline s (.record "Length" [("array", .ofString array)])
  | .join s array => exprOutline s (.record "Join" [("array", .ofString array)])
  | .call s callee args =>
    exprOutline s (.record "Call" [("callee", callee.outline), ("args", .list (exprOutlines args))])

def exprOutlines : List Expr → List Outline
  | [] => []
  | e :: es => e.outline :: exprOutlines es

end

def ArrayInit.outline : ArrayInit → Outline
  | .values items => .wrap "Values" (.list (exprOutlines items))
  | .sized length => .wrap "Sized" length.outline
  | .copyOf source => .wrap "CopyOf" (.ofString source)

def Param.outline (p : Param) : Outline :=
  .record "Param"
    [("ty", p.ty.outline), ("dims", .ofNat p.dims.toNat), ("name", .ofString p.name)]

def stmtOutline (span : Span) (kind : Outline) : Outline :=
  .record "Stmt" [("kind", kind), ("span", span.outline)]

mutual

def Stmt.outline : Stmt → Outline
  | .varDecl s ty name init =>
    stmtOutline s (.wrap "VarDecl" (.record "VarDecl"
      [("ty", ty.outline), ("name", .ofString name), ("init", .ofOption (init.map (·.outline)))]))
  | .arrayDecl s elem dims name init =>
    stmtOutline s (.wrap "VectorDecl" (.record "VectorDecl"
      [("elem_ty", elem.outline), ("dims", .ofNat dims.toNat), ("name", .ofString name),
        ("init", init.outline)]))
  | .funcDecl s returns name params body =>
    stmtOutline s (.wrap "FuncDecl" (.record "FuncDecl"
      [("return_ty", returns.outline), ("name", .ofString name),
        ("params", .list (params.map (·.outline))), ("body", .list (stmtOutlines body))]))
  | .expr s e => stmtOutline s (.wrap "Expr" e.outline)
  | .print s args => stmtOutline s (.wrap "Print" (.list (exprOutlines args)))
  | .block s body => stmtOutline s (.wrap "Block" (.list (stmtOutlines body)))
  | .conditional s c t f =>
    stmtOutline s (.record "If"
      [("cond", c.outline), ("then_branch", t.outline),
        ("else_branch", match f with
          | none => .ofOption none
          | some f => .ofOption (some f.outline))])
  | .whileLoop s c body => stmtOutline s (.record "While" [("cond", c.outline), ("body", body.outline)])
  | .forLoop s init c u body =>
    stmtOutline s (.record "For"
      [("init", match init with
          | none => .ofOption none
          | some init => .ofOption (some init.outline)),
        ("cond", .ofOption (c.map (·.outline))), ("update", .ofOption (u.map (·.outline))),
        ("body", body.outline)])
  | .forEach s elem name iterable body =>
    stmtOutline s (.record "ForEach"
      [("elem_ty", elem.outline), ("name", .ofString name), ("iterable", .ofString iterable),
        ("body", body.outline)])
  | .switch s subject cases default =>
    stmtOutline s (.record "Switch"
      [("scrutinee", subject.outline), ("cases", .list (caseOutlines cases)),
        ("default", match default with
          | none => .ofOption none
          | some body => .ofOption (some (.list (stmtOutlines body))))])
  | .breakStmt s => stmtOutline s (.leaf "Break")
  | .continueStmt s => stmtOutline s (.leaf "Continue")
  | .returnStmt s value => stmtOutline s (.wrap "Return" (.ofOption (value.map (·.outline))))

def stmtOutlines : List Stmt → List Outline
  | [] => []
  | s :: ss => s.outline :: stmtOutlines ss

def caseOutlines : List SwitchCase → List Outline
  | [] => []
  | .mk span value body :: cs =>
    .record "SwitchCase"
      [("value", value.outline), ("body", .list (stmtOutlines body)), ("span", span.outline)]
      :: caseOutlines cs

end

def Program.outline (p : Program) : String :=
  (Outline.record "Program" [("statements", .list (stmtOutlines p.statements))]).render 0

end Arbor
