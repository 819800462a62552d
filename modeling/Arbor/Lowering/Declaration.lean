import Arbor.Lowering.Expression
import Arbor.Lowering.Region

/-!
This module contains the lowering of declarations. The word that a declaration pushes becomes the variable.
-/

namespace Arbor.Lowering

open Assembly

def checkFree (span : Span) (name : String) : Lower Unit := do
  if (← frame).isDeclared name then fail span (.redeclared name)

def lowerInit (span : Span) (ty : TypeName) (init : Option Expr) : Lower Unit :=
  match ty.scalar?, init with
  | some s, some e => lowerAs e (.scalar s)
  | some s, none => pushZero s
  | none, some e =>
    if ty = .var then do
      let kind ← lowerExpr e
      if kind.scalar?.isNone then fail span (.unsupported "array values in scalar declarations")
    else fail span (.typeMismatch ty.text "a value")
  | none, none => fail span (.typeMismatch ty.text "no initializer")

def lowerVarDecl (span : Span) (ty : TypeName) (name : String) (init : Option Expr) : Lower Unit := do
  checkFree span name
  lowerInit span ty init
  nameTop span name

def pushElements (elem? : Option Scalar) : List Expr → Lower (Option Scalar)
  | [] => return elem?
  | .arrayLiteral span _ :: _ => fail span (.unsupported "nested arrays")
  | e :: rest => do
    match elem? with
    | some elem =>
      lowerAs e (.scalar elem)
      pushElements elem? rest
    | none =>
      match (← lowerExpr e).scalar? with
      | some elem => pushElements (some elem) rest
      | none => fail e.span (.unsupported "nested arrays")

def popElements (span : Span) : Nat → Lower Unit
  | 0 => return ()
  | n + 1 => do
    popValue span .t1
    emit [.sw .t1 (n * wordBytes) .t0]
    popElements span n

def arrayOfValues (span : Span) (declared : Option Scalar) (items : List Expr) : Lower Unit := do
  match ← pushElements declared items with
  | none => fail span (.typeMismatch "an element type" "an empty list")
  | some elem =>
    loadRegion items.length
    popElements span items.length
    pushArray elem (some items.length)

def sizedArray (limit : Nat) (span : Span) (elem : Scalar) (length : Expr) : Lower Unit := do
  match intLiteral? length with
  | some n =>
    if n < 0 then fail length.span (.unsupported s!"negative array length {n}")
    let size := (← liftAt length.span (intWord n)).toNat
    loadRegion size
    emit [loadZero .t1 elem]
    emitUpTo limit size unrolledFill fillLoop
    pushArray elem (some size)
  | none =>
    lowerAs length .int
    popValue span .t2
    emit heapRegion
    emit [loadZero .t1 elem]
    emitLoop fillLoop
    pushArray elem none

def copiedArray (limit : Nat) (span : Span) (declared : Option Scalar) (source : String) :
    Lower Unit := do
  let elem ← arrayElement span source
  match declared with
  | none => pure ()
  | some s =>
    if s ≠ elem then
      fail span (.typeMismatch (SlotKind.array s).text (SlotKind.array elem).text)
  let (offset, slot) ← resolve span source
  emit [.lw .t1 offset .sp]
  match slot.length with
  | some n =>
    loadRegion n
    emitUpTo limit n unrolledCopy copyLoop
    pushArray elem (some n)
  | none =>
    emit (.lw .t2 (-wordBytes) .t1 :: heapRegion)
    emitLoop copyLoop
    pushArray elem none

def lowerArrayInit (limit : Nat) (span : Span) (declared : Option Scalar) : ArrayInit → Lower Unit
  | .values items => arrayOfValues span declared items
  | .sized length =>
    match declared with
    | some elem => sizedArray limit span elem length
    | none => fail span (.typeMismatch "an element type" TypeName.var.text)
  | .copyOf source => copiedArray limit span declared source

def lowerArrayDecl (limit : Nat) (span : Span) (elem : TypeName) (dims : UInt32) (name : String)
    (init : ArrayInit) : Lower Unit := do
  checkFree span name
  if dims ≠ 1 then fail span (.unsupported s!"'{name}': multi-dimensional arrays")
  if elem.scalar?.isNone ∧ elem ≠ .var then
    fail span (.typeMismatch "an element type" elem.text)
  lowerArrayInit limit span elem.scalar? init
  nameTop span name

end Arbor.Lowering
