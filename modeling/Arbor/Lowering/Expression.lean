import Arbor.Lowering.Call
import Arbor.Lowering.Element

/-!
This module contains the lowering of expressions. The code of an expression pushes its value, a word, on the stack;
the result of lowering it is the kind of the value.
-/

namespace Arbor.Lowering

open Assembly

def condition (span : Span) (x : Lower SlotKind) : Lower Unit := do
  let kind ← x
  if kind ≠ .bool then fail span (.typeMismatch SlotKind.bool.text kind.text)
  popValue span .t0

def shortcut (isAnd : Bool) (decided : Label) : Line :=
  if isAnd then .beqz .t0 decided else .bnez .t0 decided

/--
Lower `&&` or `||`, given how the operands are lowered. The right one runs only if the left one does not decide.
-/
def lowerLogical (isAnd : Bool) (leftSpan : Span) (x : Lower SlotKind) (rightSpan : Span)
    (y : Lower SlotKind) : Lower SlotKind := do
  let decided ← freshLabel
  let done ← freshLabel
  condition leftSpan x
  emit [shortcut isAnd decided]
  condition rightSpan y
  emit [shortcut isAnd decided, .li .t0 (boolWord isAnd), .j done,
    .label decided, .li .t0 (boolWord !isAnd), .label done]
  pushValue .t0 .bool
  return .bool

/--
Lower a choice between two values, given how its parts are lowered. Only one of the values is pushed when the code
runs, so the slot of the first is taken away before the second is lowered.
-/
def lowerTernary (condSpan : Span) (c : Lower SlotKind) (trueSpan : Span) (x : Lower SlotKind)
    (falseSpan : Span) (y : Lower SlotKind) : Lower SlotKind := do
  let otherwise ← freshLabel
  let done ← freshLabel
  condition condSpan c
  emit [.beqz .t0 otherwise]
  let kind ← x
  let _ ← popSlot trueSpan
  emit [.j done, .label otherwise]
  let other ← y
  if other ≠ kind then fail falseSpan (.typeMismatch kind.text other.text)
  emit [.label done]
  return kind

def lowerExpr : Expr → Lower SlotKind
  | .literal span v => lowerLiteral span v
  | .binary span op l r =>
    match op with
    | .and => lowerLogical true l.span (lowerExpr l) r.span (lowerExpr r)
    | .or => lowerLogical false l.span (lowerExpr l) r.span (lowerExpr r)
    | op => do
      let _ ← lowerExpr l
      let _ ← lowerExpr r
      applyBinary span op
  | .unary span op e => do applyUnary span op (← lowerExpr e)
  | .grouping _ e => lowerExpr e
  | .var span name => loadVariable span name
  | .assign span name op e => lowerAssign span name op e (lowerExpr e)
  | .step span name op => lowerStep span name op
  | .ternary _ c t f => lowerTernary c.span (lowerExpr c) t.span (lowerExpr t) f.span (lowerExpr f)
  | .arrayLiteral span _ => fail span (.unsupported "array literals outside an array declaration")
  | .index span array i => lowerIndex span array i (lowerExpr i)
  | .indexAssign span array i op e => lowerIndexAssign span array i (lowerExpr i) op e (lowerExpr e)
  | .indexOf span array e => lowerIndexOf span array e (lowerExpr e)
  | .length span array => lowerLength span array
  | .join span array => lowerJoin span array
  | .call span callee args => do
    let f ← liftAt span (embeddedCallee callee)
    match args with
    | [arg] => applyEmbedded span arg.span f (← lowerExpr arg)
    | args => fail span (.arityMismatch f.name 1 args.length)

def lowerAs (e : Expr) (target : SlotKind) : Lower Unit :=
  asKind e (lowerExpr e) target

def lowerCondition (e : Expr) : Lower Unit :=
  condition e.span (lowerExpr e)

end Arbor.Lowering
