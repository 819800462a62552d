import Arbor.Syntax.Tree
import Arbor.Json.Basic

/-!
This module contains the JSON form of syntax trees. A node is an object with its `kind` and its `span`; a
kind is a tagged payload, or a bare tag where there is none. Absent parts are written as null.
-/

namespace Arbor

namespace Json

def ofNat (n : Nat) : Json :=
  .number (.integer n)

def ofOption (j? : Option Json) : Json :=
  j?.getD .null

def tagged (tag : String) (payload : Json) : Json :=
  .object [(tag, payload)]

end Json

def Position.toJson (p : Position) : Json :=
  .object [("line", .ofNat p.line.toNat), ("column", .ofNat p.column.toNat),
    ("offset", .ofNat p.offset.toNat)]

def Span.toJson (s : Span) : Json :=
  .object [("file", .string s.file), ("start", s.start.toJson), ("end", s.stop.toJson)]

def TypeName.toJson (t : TypeName) : Json :=
  .string t.text

def Literal.toJson : Literal → Json
  | .int n => .tagged "int" (.number (.integer n.toInt))
  | .float x => .tagged "float" (.number (.real x))
  | .bool b => .tagged "bool" (.bool b)
  | .char c => .tagged "char" (.string c.toString)
  | .string raw => .tagged "str" (.string raw)

def nodeToJson (span : Span) (kind : Json) : Json :=
  .object [("kind", kind), ("span", span.toJson)]

mutual

def Expr.toJson : Expr → Json
  | .literal s v => nodeToJson s (.tagged "literal" v.toJson)
  | .binary s op l r =>
    nodeToJson s (.tagged "binary"
      (.object [("op", .string op.symbol), ("left", l.toJson), ("right", r.toJson)]))
  | .unary s op e =>
    nodeToJson s (.tagged "unary" (.object [("op", .string op.symbol), ("operand", e.toJson)]))
  | .grouping s e => nodeToJson s (.tagged "grouping" e.toJson)
  | .var s name => nodeToJson s (.tagged "variable" (.string name))
  | .assign s name op e =>
    nodeToJson s (.tagged "assign"
      (.object [("name", .string name), ("op", .string op.symbol), ("value", e.toJson)]))
  | .step s name op =>
    nodeToJson s (.tagged "increment"
      (.object [("name", .string name), ("op", .string op.symbol)]))
  | .ternary s c t f =>
    nodeToJson s (.tagged "ternary"
      (.object [("cond", c.toJson), ("then_expr", t.toJson), ("else_expr", f.toJson)]))
  | .arrayLiteral s items => nodeToJson s (.tagged "array_literal" (.array (exprsToJson items)))
  | .index s array i =>
    nodeToJson s (.tagged "index" (.object [("array", .string array), ("index", i.toJson)]))
  | .indexAssign s array i op e =>
    nodeToJson s (.tagged "index_assign"
      (.object [("array", .string array), ("index", i.toJson), ("op", .string op.symbol),
        ("value", e.toJson)]))
  | .indexOf s array e =>
    nodeToJson s (.tagged "index_of" (.object [("array", .string array), ("value", e.toJson)]))
  | .length s array => nodeToJson s (.tagged "length" (.object [("array", .string array)]))
  | .join s array => nodeToJson s (.tagged "join" (.object [("array", .string array)]))
  | .call s callee args =>
    nodeToJson s (.tagged "call"
      (.object [("callee", callee.toJson), ("args", .array (exprsToJson args))]))

def exprsToJson : List Expr → List Json
  | [] => []
  | e :: es => e.toJson :: exprsToJson es

end

def ArrayInit.toJson : ArrayInit → Json
  | .values items => .tagged "values" (.array (exprsToJson items))
  | .sized length => .tagged "sized" length.toJson
  | .copyOf source => .tagged "copy_of" (.string source)

def Param.toJson (p : Param) : Json :=
  .object [("ty", p.ty.toJson), ("dims", .ofNat p.dims.toNat), ("name", .string p.name)]

mutual

def Stmt.toJson : Stmt → Json
  | .varDecl s ty name init =>
    nodeToJson s (.tagged "var_decl"
      (.object [("ty", ty.toJson), ("name", .string name), ("init", .ofOption (init.map (·.toJson)))]))
  | .arrayDecl s elem dims name init =>
    nodeToJson s (.tagged "vector_decl"
      (.object [("elem_ty", elem.toJson), ("dims", .ofNat dims.toNat), ("name", .string name),
        ("init", init.toJson)]))
  | .funcDecl s returns name params body =>
    nodeToJson s (.tagged "func_decl"
      (.object [("return_ty", returns.toJson), ("name", .string name),
        ("params", .array (params.map (·.toJson))), ("body", .array (stmtsToJson body))]))
  | .expr s e => nodeToJson s (.tagged "expr" e.toJson)
  | .print s args => nodeToJson s (.tagged "print" (.array (exprsToJson args)))
  | .block s body => nodeToJson s (.tagged "block" (.array (stmtsToJson body)))
  | .conditional s c t f =>
    nodeToJson s (.tagged "if"
      (.object [("cond", c.toJson), ("then_branch", t.toJson),
        ("else_branch", match f with
          | none => .null
          | some f => f.toJson)]))
  | .whileLoop s c body =>
    nodeToJson s (.tagged "while" (.object [("cond", c.toJson), ("body", body.toJson)]))
  | .forLoop s init c u body =>
    nodeToJson s (.tagged "for"
      (.object [("init", match init with
          | none => .null
          | some init => init.toJson),
        ("cond", .ofOption (c.map (·.toJson))), ("update", .ofOption (u.map (·.toJson))),
        ("body", body.toJson)]))
  | .forEach s elem name iterable body =>
    nodeToJson s (.tagged "for_each"
      (.object [("elem_ty", elem.toJson), ("name", .string name), ("iterable", .string iterable),
        ("body", body.toJson)]))
  | .switch s subject cases default =>
    nodeToJson s (.tagged "switch"
      (.object [("scrutinee", subject.toJson), ("cases", .array (casesToJson cases)),
        ("default", match default with
          | none => .null
          | some body => .array (stmtsToJson body))]))
  | .breakStmt s => nodeToJson s (.string "break")
  | .continueStmt s => nodeToJson s (.string "continue")
  | .returnStmt s value => nodeToJson s (.tagged "return" (.ofOption (value.map (·.toJson))))

def stmtsToJson : List Stmt → List Json
  | [] => []
  | s :: ss => s.toJson :: stmtsToJson ss

def casesToJson : List SwitchCase → List Json
  | [] => []
  | .mk span value body :: cs =>
    .object [("value", value.toJson), ("body", .array (stmtsToJson body)), ("span", span.toJson)]
      :: casesToJson cs

end

def Program.toJson (p : Program) : Json :=
  .object [("statements", .array (stmtsToJson p.statements))]

end Arbor
