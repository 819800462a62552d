import Arbor.Syntax.Tree
import Arbor.Json.Basic

/-!
This module contains the reading of syntax trees from their JSON form. Fields that are not part of a node
are ignored; a missing span is that of an unplaced node, and a missing list of parameters or arguments is
empty. Anything else that does not fit makes the whole tree invalid.

The parts of a record may always be listed by position instead of named. Whether those of a variant may be, too, is
up to whoever asks for the tree: this is what the flag `listed` says.
-/

namespace Arbor

def Json.required {α : Type} {whole : Json} (decode : Json → Option α) :
    Option (whole.Part) → Option α
  | some part => decode part.val
  | none => none

def Json.withDefault {α : Type} {whole : Json} (absent : α) (decode : Json → Option α) :
    Option (whole.Part) → Option α
  | some part => decode part.val
  | none => some absent

def Json.present? {whole : Json} : Option (whole.Part) → Option (whole.Part)
  | some part => if part.val.isNull then none else some part
  | none => none

def Json.optional {α : Type} {whole : Json} (decode : Json → Option α)
    (part? : Option (whole.Part)) : Option (Option α) :=
  match Json.present? part? with
  | some part => (decode part.val).map some
  | none => some none

def Json.list? {α : Type} (decode : Json → Option α) : Json → Option (List α)
  | .array items => items.mapM decode
  | _ => none

def Position.ofJson? (j : Json) : Option Position :=
  match j.record? ["line", "column", "offset"] with
  | some [line, column, offset] => do
    some ⟨← Json.required Json.uint32? line, ← Json.required Json.uint32? column,
      ← Json.withDefault 0 Json.uint32? offset⟩
  | _ => none

def Span.ofJson? (j : Json) : Option Span :=
  match j.record? ["file", "start", "end"] with
  | some [file, start, stop] => do
    some ⟨← Json.withDefault "" Json.string? file, ← Json.required Position.ofJson? start,
      ← Json.required Position.ofJson? stop⟩
  | _ => none

def TypeName.ofJson? (j : Json) : Option TypeName :=
  j.unitTag?.bind ofText?

def BinaryOp.ofJson? (j : Json) : Option BinaryOp :=
  j.unitTag?.bind ofSymbol?

def UnaryOp.ofJson? (j : Json) : Option UnaryOp :=
  j.unitTag?.bind ofSymbol?

def AssignOp.ofJson? (j : Json) : Option AssignOp :=
  j.unitTag?.bind ofSymbol?

def StepOp.ofJson? (j : Json) : Option StepOp :=
  j.unitTag?.bind ofSymbol?

def Literal.ofJson? (j : Json) : Option Literal :=
  match j.tagged? with
  | some ("int", n) => n.val.int64?.map .int
  | some ("float", x) => x.val.float?.map .float
  | some ("bool", b) => b.val.bool?.map .bool
  | some ("char", c) => c.val.char?.map .char
  | some ("str", s) => s.val.string?.map .string
  | _ => none

def Json.node? (j : Json) : Option (j.Part × Span) :=
  match j.record? ["kind", "span"] with
  | some [some kind, span] => do some (kind, ← Json.withDefault Span.unplaced Span.ofJson? span)
  | _ => none

mutual

def Expr.ofJson? (listed : Bool) (j : Json) : Option Expr := do
  let (⟨kind, _⟩, span) ← j.node?
  let (tag, ⟨payload, _⟩) ← kind.tagged?
  match tag with
  | "literal" => do some (.literal span (← Literal.ofJson? payload))
  | "grouping" => do some (.grouping span (← Expr.ofJson? listed payload))
  | "variable" => do some (.var span (← payload.string?))
  | "array_literal" => do
    match payload.items? with
    | some items => do some (.arrayLiteral span (← exprsOfJson? listed items))
    | none => none
  | "binary" =>
    match payload.parts? listed ["op", "left", "right"] with
    | some [op, some ⟨l, _⟩, some ⟨r, _⟩] => do
      some (.binary span (← Json.required BinaryOp.ofJson? op) (← Expr.ofJson? listed l)
        (← Expr.ofJson? listed r))
    | _ => none
  | "unary" =>
    match payload.parts? listed ["op", "operand"] with
    | some [op, some ⟨e, _⟩] => do
      some (.unary span (← Json.required UnaryOp.ofJson? op) (← Expr.ofJson? listed e))
    | _ => none
  | "assign" =>
    match payload.parts? listed ["name", "op", "value"] with
    | some [name, op, some ⟨e, _⟩] => do
      some (.assign span (← Json.required Json.string? name) (← Json.required AssignOp.ofJson? op)
        (← Expr.ofJson? listed e))
    | _ => none
  | "increment" =>
    match payload.parts? listed ["name", "op"] with
    | some [name, op] => do
      some (.step span (← Json.required Json.string? name) (← Json.required StepOp.ofJson? op))
    | _ => none
  | "ternary" =>
    match payload.parts? listed ["cond", "then_expr", "else_expr"] with
    | some [some ⟨c, _⟩, some ⟨t, _⟩, some ⟨f, _⟩] => do
      some (.ternary span (← Expr.ofJson? listed c) (← Expr.ofJson? listed t)
        (← Expr.ofJson? listed f))
    | _ => none
  | "index" =>
    match payload.parts? listed ["array", "index"] with
    | some [array, some ⟨i, _⟩] => do
      some (.index span (← Json.required Json.string? array) (← Expr.ofJson? listed i))
    | _ => none
  | "index_assign" =>
    match payload.parts? listed ["array", "index", "op", "value"] with
    | some [array, some ⟨i, _⟩, op, some ⟨e, _⟩] => do
      some (.indexAssign span (← Json.required Json.string? array) (← Expr.ofJson? listed i)
        (← Json.required AssignOp.ofJson? op) (← Expr.ofJson? listed e))
    | _ => none
  | "index_of" =>
    match payload.parts? listed ["array", "value"] with
    | some [array, some ⟨e, _⟩] => do
      some (.indexOf span (← Json.required Json.string? array) (← Expr.ofJson? listed e))
    | _ => none
  | "length" =>
    match payload.parts? listed ["array"] with
    | some [array] => do some (.length span (← Json.required Json.string? array))
    | _ => none
  | "join" =>
    match payload.parts? listed ["array"] with
    | some [array] => do some (.join span (← Json.required Json.string? array))
    | _ => none
  | "call" =>
    match payload.parts? listed ["callee", "args"] with
    | some [some ⟨callee, _⟩, none] => do some (.call span (← Expr.ofJson? listed callee) [])
    | some [some ⟨callee, _⟩, some ⟨args, _⟩] => do
      match args.items? with
      | some items => do some (.call span (← Expr.ofJson? listed callee) (← exprsOfJson? listed items))
      | none => none
    | _ => none
  | _ => none
termination_by (sizeOf j, 0)

def exprsOfJson? (listed : Bool) {whole : Json} : List whole.Part → Option (List Expr)
  | [] => some []
  | ⟨j, _⟩ :: js => do some ((← Expr.ofJson? listed j) :: (← exprsOfJson? listed js))
termination_by js => (sizeOf whole, js.length)

end

def Json.exprs? (listed : Bool) (j : Json) : Option (List Expr) :=
  j.items?.bind (exprsOfJson? listed)

def ArrayInit.ofJson? (listed : Bool) (j : Json) : Option ArrayInit :=
  match j.tagged? with
  | some ("values", items) => (items.val.exprs? listed).map .values
  | some ("sized", length) => (Expr.ofJson? listed length.val).map .sized
  | some ("copy_of", source) => source.val.string?.map .copyOf
  | _ => none

def Param.ofJson? (j : Json) : Option Param :=
  match j.record? ["ty", "dims", "name"] with
  | some [ty, dims, name] => do
    some ⟨← Json.required TypeName.ofJson? ty, ← Json.withDefault 0 Json.uint32? dims,
      ← Json.required Json.string? name⟩
  | _ => none

mutual

def Stmt.ofJson? (listed : Bool) (j : Json) : Option Stmt := do
  let (⟨kind, _⟩, span) ← j.node?
  match kind.unitTag? with
  | some "break" => some (.breakStmt span)
  | some "continue" => some (.continueStmt span)
  | some _ | none =>
    let (tag, ⟨payload, _⟩) ← kind.tagged?
    match tag with
    | "var_decl" =>
      match payload.record? ["ty", "name", "init"] with
      | some [ty, name, init] => do
        some (.varDecl span (← Json.required TypeName.ofJson? ty)
          (← Json.required Json.string? name) (← Json.optional (Expr.ofJson? listed) init))
      | _ => none
    | "vector_decl" =>
      match payload.record? ["elem_ty", "dims", "name", "init"] with
      | some [elem, dims, name, init] => do
        some (.arrayDecl span (← Json.required TypeName.ofJson? elem)
          (← Json.withDefault 1 Json.uint32? dims) (← Json.required Json.string? name)
          (← Json.required (ArrayInit.ofJson? listed) init))
      | _ => none
    | "func_decl" =>
      match payload.record? ["return_ty", "name", "params", "body"] with
      | some [returns, name, params, some ⟨body, _⟩] => do
        some (.funcDecl span (← Json.required TypeName.ofJson? returns)
          (← Json.required Json.string? name)
          (← Json.withDefault [] (Json.list? Param.ofJson?) params) (← Json.stmts? listed body))
      | _ => none
    | "expr" => do some (.expr span (← Expr.ofJson? listed payload))
    | "print" => do some (.print span (← payload.exprs? listed))
    | "block" => do some (.block span (← Json.stmts? listed payload))
    | "if" =>
      match payload.parts? listed ["cond", "then_branch", "else_branch"] with
      | some [cond, some ⟨t, _⟩, f] => do
        let cond ← Json.required (Expr.ofJson? listed) cond
        let t ← Stmt.ofJson? listed t
        match Json.present? f with
        | none => some (.conditional span cond t none)
        | some ⟨f, _⟩ => do some (.conditional span cond t (some (← Stmt.ofJson? listed f)))
      | _ => none
    | "while" =>
      match payload.parts? listed ["cond", "body"] with
      | some [cond, some ⟨body, _⟩] => do
        some (.whileLoop span (← Json.required (Expr.ofJson? listed) cond) (← Stmt.ofJson? listed body))
      | _ => none
    | "for" =>
      match payload.parts? listed ["init", "cond", "update", "body"] with
      | some [init, cond, update, some ⟨body, _⟩] => do
        let cond ← Json.optional (Expr.ofJson? listed) cond
        let update ← Json.optional (Expr.ofJson? listed) update
        let body ← Stmt.ofJson? listed body
        match Json.present? init with
        | none => some (.forLoop span none cond update body)
        | some ⟨init, _⟩ => do
          some (.forLoop span (some (← Stmt.ofJson? listed init)) cond update body)
      | _ => none
    | "for_each" =>
      match payload.parts? listed ["elem_ty", "name", "iterable", "body"] with
      | some [elem, name, iterable, some ⟨body, _⟩] => do
        some (.forEach span (← Json.required TypeName.ofJson? elem)
          (← Json.required Json.string? name) (← Json.required Json.string? iterable)
          (← Stmt.ofJson? listed body))
      | _ => none
    | "switch" =>
      match payload.parts? listed ["scrutinee", "cases", "default"] with
      | some [subject, some ⟨cases, _⟩, default] => do
        let subject ← Json.required (Expr.ofJson? listed) subject
        let cases ← Json.cases? listed cases
        match Json.present? default with
        | none => some (.switch span subject cases none)
        | some ⟨body, _⟩ => do some (.switch span subject cases (some (← Json.stmts? listed body)))
      | _ => none
    | "return" =>
      if payload.isNull then some (.returnStmt span none)
      else do some (.returnStmt span (some (← Expr.ofJson? listed payload)))
    | _ => none
termination_by (sizeOf j, 0, 0)

def Json.stmts? (listed : Bool) (j : Json) : Option (List Stmt) :=
  match j.items? with
  | some items => stmtsOfJson? listed items
  | none => none
termination_by (sizeOf j, 1, 0)

def stmtsOfJson? (listed : Bool) {whole : Json} : List whole.Part → Option (List Stmt)
  | [] => some []
  | ⟨j, _⟩ :: js => do some ((← Stmt.ofJson? listed j) :: (← stmtsOfJson? listed js))
termination_by js => (sizeOf whole, 0, js.length)

def Json.cases? (listed : Bool) (j : Json) : Option (List SwitchCase) :=
  match j.items? with
  | some items => casesOfJson? listed items
  | none => none
termination_by (sizeOf j, 1, 0)

def casesOfJson? (listed : Bool) {whole : Json} : List whole.Part → Option (List SwitchCase)
  | [] => some []
  | ⟨j, _⟩ :: js => do
    match j.record? ["value", "body", "span"] with
    | some [value, some ⟨body, _⟩, span] => do
      let value ← Json.required (Expr.ofJson? listed) value
      let body ← Json.stmts? listed body
      let span ← Json.withDefault Span.unplaced Span.ofJson? span
      some (.mk span value body :: (← casesOfJson? listed js))
    | _ => none
termination_by js => (sizeOf whole, 0, js.length)

end

def Program.ofJson? (listed : Bool) (j : Json) : Option Program :=
  match j.record? ["statements"] with
  | some [statements] => do some ⟨← Json.required (Json.stmts? listed) statements⟩
  | _ => none

end Arbor
