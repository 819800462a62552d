import Arbor.Lowering.Statement

/-!
This module contains the induction over the lowering, whether it succeeds or fails: a property that the primitive
computations have and that sequences of them keep is one of the lowering of every expression and every statement.
-/

namespace Arbor.Lowering

open Assembly

structure Closed (P : (α : Type) → Lower α → Prop) : Prop where
  pure {α : Type} (a : α) : P α (Pure.pure a)
  throw {α : Type} (e : LoweringError) : P α (MonadExcept.throw e)
  bind {α β : Type} {x : Lower α} {f : α → Lower β} : P α x → (∀ a, P β (f a)) → P β (x >>= f)
  frame : P Frame frame
  targets : P JumpTargets targets
  emit (lines : List Line) : P Unit (emit lines)
  freshLabel : P Label freshLabel
  callRoutine (r : Routine) : P Unit (callRoutine r)
  loadRegion (length : Nat) : P Unit (loadRegion length)
  pushSlot (kind : SlotKind) (length : Option Nat) : P Unit (pushSlot kind length)
  popSlot (span : Span) : P Slot (popSlot span)
  nameTop (span : Span) (name : String) : P Unit (nameTop span name)
  setKindAt (n : Nat) (kind : SlotKind) : P Unit (setKindAt n kind)
  openScope : P Unit openScope
  closeScope : P Unit closeScope
  withBreak {x : Lower Unit} (target : JumpTarget) : P Unit x → P Unit (withBreak target x)
  withContinue {x : Lower Unit} (target : JumpTarget) : P Unit x → P Unit (withContinue target x)

namespace Closed

variable {P : (α : Type) → Lower α → Prop} {α β : Type} {span : Span} {name : String}

/-! Primitive computations -/

section Primitives

theorem seq (h : Closed P) {x : Lower α} {y : Lower β} (hx : P α x) (hy : P β y) :
    P β (do let _ ← x; y) :=
  h.bind hx fun _ => hy

theorem fail (h : Closed P) (kind : LoweringErrorKind) : P α (Lowering.fail span kind) :=
  h.throw _

theorem liftAt (h : Closed P) (x : Except LoweringErrorKind α) : P α (Lowering.liftAt span x) := by
  cases x with
  | ok a => exact h.pure a
  | error kind => exact h.fail kind

theorem check (h : Closed P) {c : Prop} [Decidable c] {kind : LoweringErrorKind} {x : Lower α}
    (hx : P α x) : P α (if c then Lowering.fail span kind >>= fun _ : Unit => x else x) := by
  split
  · exact h.seq (h.fail kind) hx
  · exact hx

theorem freshLabels (h : Closed P) (xs : List β) : P (List Label) (Lowering.freshLabels xs) := by
  induction xs with
  | nil => exact h.pure []
  | cons x rest ih =>
    rw [Lowering.freshLabels]
    apply h.bind h.freshLabel
    intro label
    exact h.bind ih fun labels => h.pure _

theorem level (h : Closed P) : P Int Lowering.level :=
  h.bind h.frame fun f => h.pure f.bytes

theorem pushValue (h : Closed P) {rs : Register} {kind : SlotKind} :
    P Unit (Lowering.pushValue rs kind) :=
  h.seq (h.emit _) (h.pushSlot kind none)

theorem popValue (h : Closed P) {rd : Register} : P Unit (Lowering.popValue span rd) :=
  h.seq (h.popSlot span) (h.emit _)

theorem discard (h : Closed P) : P Unit (Lowering.discard span) :=
  h.bind (h.popSlot span) fun _ => h.emit _

theorem resolve (h : Closed P) : P (Int × Slot) (Lowering.resolve span name) := by
  apply h.bind h.frame
  intro f
  split
  · exact h.pure _
  · exact h.fail _

theorem kindAt (h : Closed P) {n : Nat} : P SlotKind (Lowering.kindAt span n) := by
  apply h.bind h.frame
  intro f
  split
  · exact h.pure _
  · exact h.fail _

theorem inScope (h : Closed P) {x : Lower Unit} (hx : P Unit x) : P Unit (Lowering.inScope x) :=
  h.seq h.openScope (h.seq hx h.closeScope)

theorem asBody (h : Closed P) {isBlock : Bool} {x : Lower Unit} (hx : P Unit x) :
    P Unit (Lowering.asBody isBlock x) := by
  unfold Lowering.asBody
  split
  · exact hx
  · exact h.inScope hx

end Primitives

/-! Operators -/

section Operators

variable {op : BinaryOp} {left right kind target : SlotKind}

theorem promoteSlot (h : Closed P) {n : Nat} : P Unit (Lowering.promoteSlot n) :=
  h.seq (h.emit _) (h.setKindAt n .float)

theorem promoteOperands (h : Closed P) : P Bool (Lowering.promoteOperands left right) := by
  unfold Lowering.promoteOperands
  split
  · exact h.pure false
  · exact h.seq h.promoteSlot (h.pure true)
  · exact h.seq h.promoteSlot (h.pure true)
  · exact h.pure true

theorem convertTop (h : Closed P) : P Unit (Lowering.convertTop span kind target) := by
  unfold Lowering.convertTop
  split
  · exact h.pure ()
  · split
    · exact h.promoteSlot
    · exact h.fail _

theorem charToText (h : Closed P) {n : Nat} : P Unit (Lowering.charToText n) :=
  h.seq (h.emit _) (h.seq (h.callRoutine _) (h.seq (h.emit _) (h.setKindAt n .string)))

theorem textOperands (h : Closed P) : P Unit (Lowering.textOperands left right) := by
  have hright : P Unit (do if right = .char then Lowering.charToText 0) := by
    split
    · exact h.charToText
    · exact h.pure ()
  unfold Lowering.textOperands
  dsimp only
  split
  · exact h.seq h.charToText hright
  · exact hright

theorem intArithmetic (h : Closed P) : P SlotKind (Lowering.intArithmetic span op) := by
  have hresult : P SlotKind (do
      Lowering.emit (intOperation op)
      Lowering.pushValue .t0 .int
      return .int) :=
    h.seq (h.emit _) (h.seq h.pushValue (h.pure _))
  apply h.seq h.popValue
  apply h.seq h.popValue
  split
  · exact h.seq (h.emit _) (h.seq (h.callRoutine _) hresult)
  · exact hresult

theorem compareInts (h : Closed P) : P SlotKind (Lowering.compareInts span op) :=
  h.seq h.popValue (h.seq h.popValue (h.seq (h.emit _) (h.seq h.pushValue (h.pure _))))

theorem popFloats (h : Closed P) : P Unit (Lowering.popFloats span) :=
  h.seq h.popValue (h.seq h.popValue (h.emit _))

theorem floatArithmetic (h : Closed P) : P SlotKind (Lowering.floatArithmetic span op) :=
  h.seq h.popFloats (h.seq (h.emit _) (h.seq (h.emit _) (h.seq h.pushValue (h.pure _))))

theorem compareFloats (h : Closed P) : P SlotKind (Lowering.compareFloats span op) :=
  h.seq h.popFloats (h.seq (h.emit _) (h.seq h.pushValue (h.pure _)))

theorem concatenate (h : Closed P) : P SlotKind (Lowering.concatenate span left right) :=
  h.seq h.textOperands (h.seq h.popValue (h.seq h.popValue
    (h.seq (h.callRoutine _) (h.seq h.pushValue (h.pure _)))))

theorem compareTexts (h : Closed P) : P SlotKind (Lowering.compareTexts span op left right) := by
  have hresult : P SlotKind (do
      Lowering.pushValue .a0 .bool
      return .bool) :=
    h.seq h.pushValue (h.pure _)
  apply h.seq h.textOperands
  apply h.seq h.popValue
  apply h.seq h.popValue
  apply h.seq (h.callRoutine _)
  split
  · exact h.seq (h.emit _) hresult
  · exact hresult

theorem arithmetic (h : Closed P) : P SlotKind (Lowering.arithmetic span op left right) := by
  apply h.bind h.promoteOperands
  intro floats
  split
  · exact h.floatArithmetic
  · exact h.intArithmetic

theorem compareNumbers (h : Closed P) : P SlotKind (Lowering.compareNumbers span op left right) := by
  apply h.bind h.promoteOperands
  intro floats
  split
  · exact h.compareFloats
  · exact h.compareInts

theorem applyBinary (h : Closed P) : P SlotKind (Lowering.applyBinary span op) := by
  apply h.bind h.kindAt
  intro right
  apply h.bind h.kindAt
  intro left
  dsimp only
  split
  · split
    · exact h.concatenate
    · split
      · exact h.arithmetic
      · exact h.fail _
  · split
    · exact h.compareInts
    · split
      · exact h.compareNumbers
      · exact h.fail _
  · split
    · exact h.compareInts
    · split
      · exact h.compareTexts
      · split
        · exact h.compareNumbers
        · exact h.fail _
  · exact h.fail _

theorem applyUnary (h : Closed P) {op : UnaryOp} : P SlotKind (Lowering.applyUnary span op kind) := by
  have hresult {kind : SlotKind} : P SlotKind (do
      Lowering.pushValue .t0 kind
      return kind) :=
    h.seq h.pushValue (h.pure _)
  unfold Lowering.applyUnary
  split
  · exact h.seq h.popValue (h.seq (h.emit _) hresult)
  · exact h.seq h.popValue (h.seq (h.emit _) hresult)
  · exact h.seq h.popValue (h.seq (h.emit _) hresult)
  · exact h.seq (h.fail _) hresult

end Operators

/-! Expressions -/

section Expressions

variable {e i : Expr} {x y z : Lower SlotKind} {kind target : SlotKind} {array : String}

theorem pushString (h : Closed P) {s : String} : P Unit (Lowering.pushString s) :=
  h.seq (h.emit _) (h.seq h.pushValue (h.emit _))

theorem pushWord (h : Closed P) {word : Int} : P SlotKind (Lowering.pushWord word kind) :=
  h.seq (h.emit _) (h.seq h.pushValue (h.pure kind))

theorem lowerLiteral (h : Closed P) {l : Literal} : P SlotKind (Lowering.lowerLiteral span l) := by
  cases l with
  | int n => exact h.bind (h.liftAt _) fun word => h.pushWord
  | float x => exact h.seq (h.emit _) h.pushWord
  | bool b => exact h.pushWord
  | char c => exact h.pushWord
  | string raw => exact h.seq h.pushString (h.pure _)

theorem loadVariable (h : Closed P) : P SlotKind (Lowering.loadVariable span name) := by
  apply h.bind h.resolve
  intro found
  exact h.seq (h.emit _) (h.seq (h.pushSlot ..) (h.pure _))

theorem storeTop (h : Closed P) : P Unit (Lowering.storeTop span name) :=
  h.bind h.resolve fun _ => h.emit _

theorem asKind (h : Closed P) (hx : P SlotKind x) : P Unit (Lowering.asKind e x target) := by
  unfold Lowering.asKind
  split
  · exact h.seq h.pushWord (h.pure ())
  · exact h.bind hx fun kind => h.convertTop

theorem lowerAssign (h : Closed P) {op : AssignOp} (hx : P SlotKind x) :
    P SlotKind (Lowering.lowerAssign span name op e x) := by
  apply h.bind h.resolve
  rintro ⟨offset, slot⟩
  have hstore : P SlotKind (do
      Lowering.storeTop span name
      return slot.kind) :=
    h.seq h.storeTop (h.pure _)
  apply h.check
  split
  · exact h.seq (h.asKind hx) hstore
  · apply h.seq h.loadVariable
    apply h.seq hx
    apply h.bind h.applyBinary
    intro kind
    exact h.seq h.convertTop hstore

theorem lowerStep (h : Closed P) {op : StepOp} : P SlotKind (Lowering.lowerStep span name op) := by
  apply h.bind h.resolve
  rintro ⟨offset, slot⟩
  dsimp only
  split
  · exact h.fail _
  · exact h.seq (h.emit _) (h.seq h.pushValue (h.pure _))

theorem arrayElement (h : Closed P) : P Scalar (Lowering.arrayElement span name) := by
  apply h.bind h.resolve
  rintro ⟨offset, slot⟩
  dsimp only
  split
  · exact h.pure _
  · exact h.fail _

theorem loadArray (h : Closed P) {rd : Register} : P Unit (Lowering.loadArray span name rd) :=
  h.bind h.resolve fun _ => h.emit _

theorem elementAddress (h : Closed P) : P Unit (Lowering.elementAddress span array) :=
  h.seq h.loadArray (h.seq (h.emit _) (h.seq (h.callRoutine _) (h.emit _)))

theorem lowerIndex (h : Closed P) (hx : P SlotKind x) :
    P SlotKind (Lowering.lowerIndex span array i x) := by
  apply h.bind h.arrayElement
  intro elem
  apply h.seq (h.asKind hx)
  apply h.seq h.popValue
  apply h.seq h.elementAddress
  exact h.seq (h.emit _) (h.seq h.pushValue (h.pure _))

theorem lowerIndexAssign (h : Closed P) {op : AssignOp} (hx : P SlotKind x) (hy : P SlotKind y) :
    P SlotKind (Lowering.lowerIndexAssign span array i x op e y) := by
  apply h.bind h.arrayElement
  intro elem
  have hstore : P SlotKind (do
      Lowering.emit [.lw .t2 0 .sp, .lw .t0 wordBytes .sp]
      Lowering.elementAddress span array
      Lowering.emit [.sw .t2 0 .t0, .sw .t2 wordBytes .sp]
      Lowering.discard span
      Lowering.setKindAt 0 (.scalar elem)
      return .scalar elem) :=
    h.seq (h.emit _) (h.seq h.elementAddress (h.seq (h.emit _)
      (h.seq h.discard (h.seq (h.setKindAt ..) (h.pure _)))))
  apply h.seq (h.asKind hx)
  split
  · exact h.seq (h.asKind hy) hstore
  · apply h.seq (h.emit _)
    apply h.seq h.elementAddress
    apply h.seq (h.emit _)
    apply h.seq h.pushValue
    apply h.seq hy
    apply h.bind h.applyBinary
    intro kind
    exact h.seq h.convertTop hstore

theorem lowerIndexOf (h : Closed P) (hx : P SlotKind x) :
    P SlotKind (Lowering.lowerIndexOf span array e x) := by
  apply h.bind h.arrayElement
  intro elem
  apply h.seq (h.asKind hx)
  apply h.seq h.popValue
  apply h.seq h.loadArray
  exact h.seq (h.emit _) (h.seq (h.callRoutine _) (h.seq h.pushValue (h.pure _)))

theorem lowerLength (h : Closed P) : P SlotKind (Lowering.lowerLength span array) :=
  h.seq h.arrayElement (h.seq h.loadArray (h.seq (h.emit _) (h.seq h.pushValue (h.pure _))))

theorem lowerJoin (h : Closed P) : P SlotKind (Lowering.lowerJoin span array) := by
  apply h.bind h.arrayElement
  intro elem
  exact h.seq h.loadArray (h.seq (h.emit _) (h.seq (h.callRoutine _) (h.seq h.pushValue (h.pure _))))

theorem applyRoutine (h : Closed P) {r : Routine} : P SlotKind (Lowering.applyRoutine span r kind) :=
  h.seq h.popValue (h.seq (h.callRoutine r) (h.seq h.pushValue (h.pure kind)))

theorem applyToString (h : Closed P) {argSpan : Span} {r : Routine} {result : SlotKind} :
    P SlotKind (Lowering.applyToString span argSpan kind r result) := by
  unfold Lowering.applyToString
  split
  · exact h.applyRoutine
  · exact h.fail _

theorem applyEmbedded (h : Closed P) {argSpan : Span} {f : Embedded} :
    P SlotKind (Lowering.applyEmbedded span argSpan f kind) := by
  unfold Lowering.applyEmbedded
  split
  · exact h.seq h.discard (h.seq h.pushString (h.pure _))
  · split
    · split
      · exact h.applyRoutine
      · exact h.pure _
    · exact h.fail _
  · exact h.applyToString
  · exact h.applyToString
  · exact h.applyToString
  · exact h.applyToString

theorem condition (h : Closed P) (hx : P SlotKind x) : P Unit (Lowering.condition span x) := by
  apply h.bind hx
  intro kind
  exact h.check h.popValue

theorem lowerLogical (h : Closed P) {isAnd : Bool} {leftSpan rightSpan : Span} (hx : P SlotKind x)
    (hy : P SlotKind y) : P SlotKind (Lowering.lowerLogical isAnd leftSpan x rightSpan y) := by
  apply h.bind h.freshLabel
  intro decided
  apply h.bind h.freshLabel
  intro done
  apply h.seq (h.condition hx)
  apply h.seq (h.emit _)
  apply h.seq (h.condition hy)
  exact h.seq (h.emit _) (h.seq h.pushValue (h.pure _))

theorem lowerTernary (h : Closed P) {condSpan trueSpan falseSpan : Span} (hx : P SlotKind x)
    (hy : P SlotKind y) (hz : P SlotKind z) :
    P SlotKind (Lowering.lowerTernary condSpan x trueSpan y falseSpan z) := by
  apply h.bind h.freshLabel
  intro otherwise
  apply h.bind h.freshLabel
  intro done
  apply h.seq (h.condition hx)
  apply h.seq (h.emit _)
  apply h.bind hy
  intro kind
  apply h.seq (h.popSlot _)
  apply h.seq (h.emit _)
  apply h.bind hz
  intro other
  exact h.check (h.seq (h.emit _) (h.pure kind))

theorem lowerExpr (h : Closed P) : ∀ e : Expr, P SlotKind (Lowering.lowerExpr e)
  | .literal span v => by
    rw [Lowering.lowerExpr]
    exact h.lowerLiteral
  | .binary span op l r => by
    have hl := h.lowerExpr l
    have hr := h.lowerExpr r
    unfold Lowering.lowerExpr
    split
    · exact h.lowerLogical hl hr
    · exact h.lowerLogical hl hr
    · exact h.seq hl (h.seq hr h.applyBinary)
  | .unary span op e => by
    rw [Lowering.lowerExpr]
    exact h.bind (h.lowerExpr e) fun kind => h.applyUnary
  | .grouping _ e => by
    rw [Lowering.lowerExpr]
    exact h.lowerExpr e
  | .var span name => by
    rw [Lowering.lowerExpr]
    exact h.loadVariable
  | .assign span name op e => by
    rw [Lowering.lowerExpr]
    exact h.lowerAssign (h.lowerExpr e)
  | .step span name op => by
    rw [Lowering.lowerExpr]
    exact h.lowerStep
  | .ternary _ c t e => by
    rw [Lowering.lowerExpr]
    exact h.lowerTernary (h.lowerExpr c) (h.lowerExpr t) (h.lowerExpr e)
  | .arrayLiteral span items => by
    rw [Lowering.lowerExpr]
    exact h.fail _
  | .index span array i => by
    rw [Lowering.lowerExpr]
    exact h.lowerIndex (h.lowerExpr i)
  | .indexAssign span array i op e => by
    rw [Lowering.lowerExpr]
    exact h.lowerIndexAssign (h.lowerExpr i) (h.lowerExpr e)
  | .indexOf span array e => by
    rw [Lowering.lowerExpr]
    exact h.lowerIndexOf (h.lowerExpr e)
  | .length span array => by
    rw [Lowering.lowerExpr]
    exact h.lowerLength
  | .join span array => by
    rw [Lowering.lowerExpr]
    exact h.lowerJoin
  | .call span callee args => by
    unfold Lowering.lowerExpr
    apply h.bind (h.liftAt _)
    intro f
    split
    · next arg => exact h.bind (h.lowerExpr arg) fun kind => h.applyEmbedded
    · exact h.fail _

theorem lowerAs (h : Closed P) : P Unit (Lowering.lowerAs e target) :=
  h.asKind (h.lowerExpr e)

theorem lowerCondition (h : Closed P) : P Unit (Lowering.lowerCondition e) :=
  h.condition (h.lowerExpr e)

end Expressions

/-! Declarations -/

section Declarations

variable {elem : Scalar} {declared : Option Scalar} {limit : Nat}

theorem checkFree (h : Closed P) {x : Lower α} (hx : P α x) :
    P α (do Lowering.checkFree span name; x) := by
  apply h.seq _ hx
  apply h.bind h.frame
  intro f
  split
  · exact h.fail _
  · exact h.pure ()

theorem lowerInit (h : Closed P) {ty : TypeName} {init : Option Expr} :
    P Unit (Lowering.lowerInit span ty init) := by
  unfold Lowering.lowerInit
  split
  · exact h.lowerAs
  · exact h.seq (h.emit _) h.pushValue
  · split
    · apply h.bind (h.lowerExpr _)
      intro kind
      split
      · exact h.fail _
      · exact h.pure ()
    · exact h.fail _
  · exact h.fail _

theorem lowerVarDecl (h : Closed P) {ty : TypeName} {init : Option Expr} :
    P Unit (Lowering.lowerVarDecl span ty name init) :=
  h.checkFree (h.seq h.lowerInit (h.nameTop span name))

theorem pushElements (h : Closed P) (items : List Expr) :
    P (Option Scalar) (Lowering.pushElements declared items) := by
  fun_induction Lowering.pushElements declared items with
  | case1 elem? => exact h.pure elem?
  | case2 elem? span items rest => exact h.fail _
  | case3 e rest _ elem ih => exact h.seq h.lowerAs ih
  | case4 e rest _ ih =>
    apply h.bind (h.lowerExpr e)
    intro kind
    split
    · exact ih _
    · exact h.fail _

theorem popElements (h : Closed P) (n : Nat) : P Unit (Lowering.popElements span n) := by
  induction n with
  | zero => exact h.pure ()
  | succ n ih => exact h.seq h.popValue (h.seq (h.emit _) ih)

theorem pushArray (h : Closed P) {length : Option Nat} : P Unit (Lowering.pushArray elem length) :=
  h.seq (h.emit _) (h.pushSlot ..)

theorem emitLoop (h : Closed P) {lines : Label → Label → List Line} :
    P Unit (Lowering.emitLoop lines) := by
  apply h.bind h.freshLabel
  intro top
  apply h.bind h.freshLabel
  intro done
  exact h.emit _

theorem emitUpTo (h : Closed P) {length : Nat} {unrolled : Nat → List Line}
    {lines : Label → Label → List Line} : P Unit (Lowering.emitUpTo limit length unrolled lines) := by
  unfold Lowering.emitUpTo
  split
  · exact h.emit _
  · exact h.seq (h.emit _) h.emitLoop

theorem arrayOfValues (h : Closed P) {items : List Expr} :
    P Unit (Lowering.arrayOfValues span declared items) := by
  apply h.bind (h.pushElements items)
  intro elem?
  split
  · exact h.fail _
  · exact h.seq (h.loadRegion _) (h.seq (h.popElements _) h.pushArray)

theorem sizedArray (h : Closed P) {length : Expr} :
    P Unit (Lowering.sizedArray limit span elem length) := by
  unfold Lowering.sizedArray
  split
  · apply h.check
    apply h.bind (h.liftAt _)
    intro word
    exact h.seq (h.loadRegion _) (h.seq (h.emit _) (h.seq h.emitUpTo h.pushArray))
  · apply h.seq h.lowerAs
    apply h.seq h.popValue
    exact h.seq (h.emit _) (h.seq (h.emit _) (h.seq h.emitLoop h.pushArray))

theorem copiedElements (h : Closed P) {source : String} : P Unit (do
    let (offset, slot) ← Lowering.resolve span source
    Lowering.emit [.lw .t1 offset .sp]
    match slot.length with
    | some n =>
      Lowering.loadRegion n
      Lowering.emitUpTo limit n unrolledCopy copyLoop
      Lowering.pushArray elem (some n)
    | none =>
      Lowering.emit (.lw .t2 (-wordBytes) .t1 :: heapRegion)
      Lowering.emitLoop copyLoop
      Lowering.pushArray elem none) := by
  apply h.bind h.resolve
  rintro ⟨offset, slot⟩
  apply h.seq (h.emit _)
  split
  · exact h.seq (h.loadRegion _) (h.seq h.emitUpTo h.pushArray)
  · exact h.seq (h.emit _) (h.seq h.emitLoop h.pushArray)

theorem copiedArray (h : Closed P) {source : String} :
    P Unit (Lowering.copiedArray limit span declared source) := by
  apply h.bind h.arrayElement
  intro elem
  split
  · exact h.seq (h.pure ()) h.copiedElements
  · exact h.check h.copiedElements

theorem lowerArrayInit (h : Closed P) {init : ArrayInit} :
    P Unit (Lowering.lowerArrayInit limit span declared init) := by
  unfold Lowering.lowerArrayInit
  split
  · exact h.arrayOfValues
  · split
    · exact h.sizedArray
    · exact h.fail _
  · exact h.copiedArray

theorem lowerArrayDecl (h : Closed P) {ty : TypeName} {dims : UInt32} {init : ArrayInit} :
    P Unit (Lowering.lowerArrayDecl limit span ty dims name init) := by
  apply h.checkFree
  apply h.check
  apply h.check
  exact h.seq h.lowerArrayInit (h.nameTop span name)

end Declarations

/-! Statements -/

section Statements

variable {limit : Nat} {cond update : Option Expr} {body : Lower Unit}

theorem printTop (h : Closed P) {kind : SlotKind} : P Unit (Lowering.printTop span kind) := by
  unfold Lowering.printTop
  split
  · exact h.seq h.popValue (h.emit _)
  · exact h.seq h.popValue (h.emit _)
  · exact h.seq h.popValue (h.emit _)
  · exact h.seq h.popValue (h.emit _)
  · apply h.bind h.freshLabel
    intro chosen
    exact h.seq h.popValue (h.emit _)
  · exact h.seq h.popValue (h.seq (h.emit _) (h.callRoutine _))

theorem printValues (h : Closed P) {separator : List Line} (args : List Expr) :
    P Unit (Lowering.printValues span separator args) := by
  induction args generalizing separator with
  | nil => exact h.pure ()
  | cons e rest ih =>
    rw [Lowering.printValues]
    apply h.seq (h.emit _)
    apply h.bind (h.lowerExpr e)
    intro kind
    exact h.seq h.printTop ih

theorem lowerPrint (h : Closed P) {args : List Expr} : P Unit (Lowering.lowerPrint span args) :=
  h.seq (h.emit _) (h.seq (h.printValues args) (h.emit _))

theorem lowerIf (h : Closed P) {c : Expr} {whenTrue : Body} {whenFalse : Option Body}
    (htrue : P Unit whenTrue) (hfalse : ∀ x ∈ whenFalse, P Unit x) :
    P Unit (Lowering.lowerIf c whenTrue whenFalse) := by
  apply h.bind h.freshLabel
  intro done
  apply h.seq h.lowerCondition
  split
  · next x =>
    apply h.bind h.freshLabel
    intro otherwise
    exact h.seq (h.emit _) (h.seq htrue (h.seq (h.emit _) (h.seq (hfalse x rfl) (h.emit _))))
  · exact h.seq (h.emit _) (h.seq htrue (h.emit _))

theorem loopBody (h : Closed P) {done next : Label} {level : Int} (hbody : P Unit body) :
    P Unit (Lowering.loopBody done next level body) :=
  h.withBreak _ (h.withContinue _ hbody)

theorem lowerWhile (h : Closed P) {c : Expr} (hbody : P Unit body) :
    P Unit (Lowering.lowerWhile c body) := by
  apply h.bind h.freshLabel
  intro top
  apply h.bind h.freshLabel
  intro done
  apply h.seq (h.emit _)
  apply h.seq h.lowerCondition
  apply h.seq (h.emit _)
  apply h.bind h.level
  intro level
  exact h.seq (h.loopBody hbody) (h.emit _)

theorem loopTest (h : Closed P) {done : Label} : P Unit (Lowering.loopTest cond done) := by
  unfold Lowering.loopTest
  split
  · exact h.pure ()
  · exact h.seq h.lowerCondition (h.emit _)

theorem loopUpdate (h : Closed P) : P Unit (Lowering.loopUpdate update) := by
  unfold Lowering.loopUpdate
  split
  · exact h.pure ()
  · exact h.seq (h.lowerExpr _) h.discard

theorem lowerFor (h : Closed P) {init : Option (Lower Unit)} (hinit : ∀ x ∈ init, P Unit x)
    (hbody : P Unit body) : P Unit (Lowering.lowerFor init cond update body) := by
  apply h.bind h.freshLabel
  intro top
  apply h.bind h.freshLabel
  intro next
  apply h.bind h.freshLabel
  intro done
  apply h.inScope
  have hloop : P Unit (do
      Lowering.emit [.label top]
      Lowering.loopTest cond done
      Lowering.loopBody done next (← Lowering.level) body
      Lowering.emit [.label next]
      Lowering.loopUpdate update
      Lowering.emit [.j top, .label done]) := by
    apply h.seq (h.emit _)
    apply h.seq h.loopTest
    apply h.bind h.level
    intro level
    apply h.seq (h.loopBody hbody)
    exact h.seq (h.emit _) (h.seq h.loopUpdate (h.emit _))
  split
  · exact hloop
  · next x => exact h.seq (hinit x rfl) hloop

theorem lowerForEach (h : Closed P) {declared : TypeName} {iterable : String} (hbody : P Unit body) :
    P Unit (Lowering.lowerForEach span declared name iterable body) := by
  apply h.bind h.arrayElement
  intro elem
  apply h.check
  apply h.bind h.freshLabel
  intro top
  apply h.bind h.freshLabel
  intro next
  apply h.bind h.freshLabel
  intro done
  apply h.inScope
  apply h.seq h.loadVariable
  apply h.seq (h.nameTop ..)
  apply h.seq h.pushWord
  apply h.seq (h.nameTop ..)
  apply h.bind h.level
  intro outside
  apply h.seq (h.emit _)
  apply h.seq _ (h.emit _)
  exact h.inScope (h.seq h.pushValue (h.seq (h.nameTop ..) (h.loopBody hbody)))

theorem caseWord (h : Closed P) {kind : SlotKind} (e : Expr) : P Int (Lowering.caseWord kind e) := by
  fun_induction Lowering.caseWord kind e with
  | case1 span inner ih => exact ih
  | case2 => exact h.liftAt _
  | case3 => exact h.pure _
  | case4 => exact h.pure _
  | case5 => exact h.fail _
  | case6 => exact h.bind (h.liftAt _) fun word => h.pure _
  | case7 => exact h.fail _
  | case8 => exact h.fail _

theorem matchWords (h : Closed P) {kind : SlotKind} (cases : List (Expr × Label)) :
    P Unit (Lowering.matchWords kind cases) := by
  induction cases with
  | nil => exact h.pure ()
  | cons entry rest ih =>
    obtain ⟨e, label⟩ := entry
    rw [Lowering.matchWords]
    apply h.bind (h.caseWord e)
    intro word
    exact h.seq (h.emit _) ih

theorem matchStrings (h : Closed P) (cases : List (Expr × Label)) :
    P Unit (Lowering.matchStrings cases) := by
  induction cases with
  | nil => exact h.pure ()
  | cons entry rest ih =>
    obtain ⟨e, label⟩ := entry
    rw [Lowering.matchStrings]
    apply h.check
    apply h.seq (h.lowerExpr e)
    apply h.seq h.popValue
    apply h.seq (h.emit _)
    exact h.seq (h.callRoutine _) (h.seq (h.emit _) ih)

theorem matchCases (h : Closed P) {kind : SlotKind} {cases : List (Expr × Label)} :
    P Unit (Lowering.matchCases span kind cases) := by
  unfold Lowering.matchCases
  split
  · exact h.seq h.popValue (h.matchStrings cases)
  · exact h.seq h.popValue (h.matchWords cases)
  · exact h.seq h.popValue (h.matchWords cases)
  · exact h.seq h.popValue (h.matchWords cases)
  · exact h.fail _

theorem lowerBodies (h : Closed P) (bodies : List (Label × Body)) (hbodies : ∀ b ∈ bodies, P Unit b.2) :
    P Unit (Lowering.lowerBodies bodies) := by
  induction bodies with
  | nil => exact h.pure ()
  | cons entry rest ih =>
    obtain ⟨label, body⟩ := entry
    rw [List.forall_mem_cons] at hbodies
    rw [Lowering.lowerBodies]
    exact h.seq (h.emit _) (h.seq hbodies.1 (ih hbodies.2))

theorem lowerSwitch (h : Closed P) {subject : Expr} {values : List Expr} {bodies : List Body}
    {default : Option Body} (hbodies : ∀ x ∈ bodies, P Unit x) (hdefault : ∀ x ∈ default, P Unit x) :
    P Unit (Lowering.lowerSwitch subject values bodies default) := by
  apply h.bind (h.lowerExpr subject)
  intro kind
  apply h.bind h.freshLabel
  intro done
  apply h.bind (h.freshLabels _)
  intro labels
  apply h.bind (h.freshLabels _)
  intro defaults
  apply h.seq h.matchCases
  apply h.seq (h.emit _)
  apply h.bind h.level
  intro level
  apply h.seq _ (h.emit _)
  apply h.withBreak
  apply h.lowerBodies
  intro entry hentry
  rcases List.mem_append.mp hentry with hentry | hentry
  · exact hbodies _ (List.of_mem_zip hentry).2
  · exact hdefault _ (Option.mem_toList.mp (List.of_mem_zip hentry).2)

theorem jumpTo (h : Closed P) {target : JumpTarget} : P Unit (Lowering.jumpTo target) :=
  h.bind h.level fun _ => h.seq (h.emit _) (h.emit _)

theorem lowerBreak (h : Closed P) : P Unit (Lowering.lowerBreak span) := by
  apply h.bind h.targets
  intro targets
  split
  · exact h.jumpTo
  · exact h.fail _

theorem lowerContinue (h : Closed P) : P Unit (Lowering.lowerContinue span) := by
  apply h.bind h.targets
  intro targets
  split
  · exact h.jumpTo
  · exact h.fail _

mutual

theorem lowerStmt (h : Closed P) : ∀ stmt : Stmt, P Unit (Lowering.lowerStmt limit stmt)
  | .varDecl .. => by
    unfold Lowering.lowerStmt
    exact h.lowerVarDecl
  | .arrayDecl .. => by
    unfold Lowering.lowerStmt
    exact h.lowerArrayDecl
  | .funcDecl .. => by
    unfold Lowering.lowerStmt
    exact h.fail _
  | .expr _ e => by
    unfold Lowering.lowerStmt
    exact h.seq (h.lowerExpr e) h.discard
  | .print .. => by
    unfold Lowering.lowerStmt
    exact h.lowerPrint
  | .block _ body => by
    unfold Lowering.lowerStmt
    exact h.inScope (h.lowerStmts body)
  | .conditional _ _ t none => by
    unfold Lowering.lowerStmt
    exact h.lowerIf (h.asBody (h.lowerStmt t)) (by simp)
  | .conditional _ _ t (some f) => by
    have hf := h.lowerStmt f
    unfold Lowering.lowerStmt
    apply h.lowerIf (h.asBody (h.lowerStmt t))
    intro x hx
    cases hx
    exact h.asBody hf
  | .whileLoop _ _ body => by
    unfold Lowering.lowerStmt
    exact h.lowerWhile (h.asBody (h.lowerStmt body))
  | .forLoop _ none _ _ body => by
    unfold Lowering.lowerStmt
    exact h.lowerFor (by simp) (h.asBody (h.lowerStmt body))
  | .forLoop _ (some init) _ _ body => by
    have hinit := h.lowerStmt init
    unfold Lowering.lowerStmt
    apply h.lowerFor _ (h.asBody (h.lowerStmt body))
    intro x hx
    cases hx
    exact hinit
  | .forEach _ _ _ _ body => by
    unfold Lowering.lowerStmt
    exact h.lowerForEach (h.asBody (h.lowerStmt body))
  | .switch _ _ cases none => by
    unfold Lowering.lowerStmt
    exact h.lowerSwitch (h.lowerCases cases) (by simp)
  | .switch _ _ cases (some body) => by
    have hdefault := h.inScope (h.lowerStmts body)
    unfold Lowering.lowerStmt
    apply h.lowerSwitch (h.lowerCases cases)
    intro x hx
    cases hx
    exact hdefault
  | .breakStmt _ => by
    unfold Lowering.lowerStmt
    exact h.lowerBreak
  | .continueStmt _ => by
    unfold Lowering.lowerStmt
    exact h.lowerContinue
  | .returnStmt .. => by
    unfold Lowering.lowerStmt
    exact h.fail _

theorem lowerStmts (h : Closed P) : ∀ body : List Stmt, P Unit (Lowering.lowerStmts limit body)
  | [] => by
    rw [Lowering.lowerStmts]
    exact h.pure ()
  | stmt :: rest => by
    rw [Lowering.lowerStmts]
    exact h.seq (h.lowerStmt stmt) (h.lowerStmts rest)

theorem lowerCases (h : Closed P) :
    ∀ cases : List SwitchCase, ∀ x ∈ Lowering.lowerCases limit cases, P Unit x
  | [] => by
    rw [Lowering.lowerCases]
    simp
  | .mk _ _ body :: rest => by
    rw [Lowering.lowerCases, List.forall_mem_cons]
    exact ⟨h.inScope (h.lowerStmts body), h.lowerCases rest⟩

end

end Statements

end Closed

end Arbor.Lowering
