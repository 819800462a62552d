import Arbor.Proofs.Evaluation.Moment
import Arbor.Proofs.Evaluation.WellKinded

/-!
This module contains the induction over the evaluator: a property that the primitive runs have and that the combinators
keep is one of the run of every expression and every statement.

Expressions and statements may have different properties. A declaration is a run of a statement; a scope or a call
turns what a statement does into something an expression may do.
-/

namespace Arbor.Evaluation

/--
Two properties of runs, the first one stronger: one of all that expressions do, one of all that statements do.
-/
structure Closed (E S : (α : Type) → Run α → Prop) : Prop where
  pure {α : Type} (a : α) : E α (Pure.pure a)
  throw {α : Type} (h : Halt) : E α (MonadExcept.throw h)
  bind {α β : Type} {x : Run α} {f : α → Run β} : E α x → (∀ a, E β (f a)) → E β (x >>= f)
  get : E State MonadState.get
  writeVariable (span : Span) (name : String) (v : Value) : E Unit (writeVariable span name v)
  checkArray {x : Run Value} : E Value x → E _ (checkArray x)
  inScope {α : Type} {x : Run α} : S α x → E α (inScope x)
  inCall {α : Type} {scope : Nat} {x : Run α} : S α x → E α (inCall scope x)
  statement {α : Type} {x : Run α} : E α x → S α x
  andThen {α β : Type} {x : Run α} {f : α → Run β} : S α x → (∀ a, S β (f a)) → S β (x >>= f)
  declare (span : Span) (name : String) (kind : Kind) (v : Value) : S Unit (declare span name kind v)
  capture : S Unit (do setEnvironment (← environment).capture.2)
  printLine (values : List Value) : S Unit (printLine values)

namespace Closed

variable {E S : (α : Type) → Run α → Prop} {α β : Type}

/-! Primitive runs -/

section Primitives

variable {span : Span} {name : String}

theorem raise (h : Closed E S) (e : EvalErrorKind) : E α (Evaluation.raise span e) :=
  h.throw _

theorem liftAt (h : Closed E S) (x : Except EvalErrorKind α) : E α (Evaluation.liftAt span x) := by
  cases x with
  | ok a => exact h.pure a
  | error e => exact h.raise e

theorem literal (h : Closed E S) {x : Run Value} (hx : E Value x) :
    E Value (Evaluation.literal span x) := by
  apply h.bind hx
  intro v
  split
  · exact h.raise _
  · exact h.pure v

theorem condition (h : Closed E S) {x : Run Value} (hx : E Value x) :
    E Bool (Evaluation.condition span x) := by
  apply h.bind (h.literal hx)
  intro v
  split
  · exact h.pure _
  · exact h.raise _

theorem environment (h : Closed E S) : E Environment Evaluation.environment :=
  h.bind h.get fun s => h.pure s.env

theorem binding (h : Closed E S) {f : Binding → Run β} (hf : ∀ b, E β (f b)) :
    E β (do f (← Evaluation.liftAt span ((← Evaluation.environment).get name))) := by
  apply h.bind h.environment
  intro env
  exact h.bind (h.liftAt _) hf

theorem readVariable (h : Closed E S) : E Value (readVariable span name) :=
  h.binding fun b => h.pure b.value

theorem bindChecked (h : Closed E S) {kind : Kind} (checked : Except EvalErrorKind Value) :
    S Unit (bindChecked span name kind checked) := by
  cases checked with
  | ok v => exact h.declare span name kind v
  | error e => exact h.andThen (h.declare span name kind .null) fun _ => h.statement (h.raise e)

theorem assignValue (h : Closed E S) {kind : Kind} (v : Value) :
    E Value (assignValue span name kind v) := by
  unfold Evaluation.assignValue
  split
  · exact h.bind (h.writeVariable ..) fun _ => h.pure _
  · exact h.bind (h.writeVariable ..) fun _ => h.raise _

theorem assign (h : Closed E S) {op : AssignOp} {v : Value} : E Value (assign span name op v) := by
  apply h.binding
  intro b
  dsimp only
  split
  · exact h.assignValue v
  · exact h.bind (h.liftAt _) h.assignValue

theorem stepVariable (h : Closed E S) {op : StepOp} : E Value (stepVariable span name op) := by
  apply h.bind h.readVariable
  intro v
  apply h.bind (h.liftAt _)
  intro stepped
  exact h.bind (h.writeVariable ..) fun _ => h.pure stepped

theorem declareFunction (h : Closed E S) {returns : TypeName} {params : List Param}
    {body : List Stmt} : S Unit (declareFunction span returns name params body) := by
  have hscope : S Nat (do return (← Evaluation.environment).capture.1) :=
    h.statement (h.bind h.environment fun env => h.pure env.current)
  have hsplit : Evaluation.declareFunction span returns name params body = (do
      let scope ← (do return (← Evaluation.environment).capture.1 : Run Nat)
      (do setEnvironment (← Evaluation.environment).capture.2 : Run Unit)
      Evaluation.declare span name .function
        (.function (.closure ⟨returns, name, params, body, scope⟩))) := rfl
  rw [hsplit]
  apply h.andThen hscope
  intro scope
  exact h.andThen h.capture fun _ => h.declare ..

theorem readArray (h : Closed E S) : E (Kind × List Value) (readArray span name) := by
  apply h.bind h.readVariable
  intro v
  split
  · exact h.pure _
  · exact h.raise _

theorem copyArray (h : Closed E S) {kind : Kind} : E Value (copyArray span kind name) := by
  apply h.bind h.readVariable
  intro v
  split
  · split
    · exact h.pure _
    · exact h.raise _
  · exact h.raise _

theorem readElement (h : Closed E S) {i : Int} : E Value (readElement span name i) := by
  apply h.bind h.readArray
  intro a
  apply h.bind (h.liftAt _)
  intro slot
  split
  · exact h.pure _
  · exact h.raise _

theorem writeElement (h : Closed E S) {i : Int} {op : AssignOp} {v : Value} :
    E Value (writeElement span name i op v) := by
  apply h.bind h.readArray
  rintro ⟨elem, items⟩
  apply h.bind h.readElement
  intro old
  have hstore (v : Value) : E Value (do
      let stored ← Evaluation.liftAt span (elementOf v elem)
      Evaluation.writeVariable span name (.array elem (items.set i.toNat stored))
      return stored) := by
    apply h.bind (h.liftAt _)
    intro stored
    exact h.bind (h.writeVariable ..) fun _ => h.pure stored
  dsimp only
  split
  · exact hstore v
  · exact h.bind (h.liftAt _) hstore

theorem positionOf (h : Closed E S) {v : Value} : E Value (positionOf span name v) := by
  apply h.bind h.readArray
  intro a
  dsimp only
  split
  · exact h.pure _
  · exact h.pure _

theorem declareArray (h : Closed E S) {elem : TypeName} {dims : UInt32}
    {build : Scalar → Nat → Run Value} (hbuild : ∀ s n, E Value (build s n)) :
    S Unit (declareArray span elem dims name build) := by
  unfold Evaluation.declareArray
  split
  · exact h.statement (h.raise _)
  · exact h.andThen (h.statement (h.checkArray (hbuild _ _))) fun checked => h.bindChecked checked

end Primitives

/-! Control flow -/

section Control

variable {first second body : Run Flow}

theorem sequence (h : Closed E S) (hfirst : S Flow first) (hsecond : S Flow second) :
    S Flow (Evaluation.andThen first second) := by
  apply h.andThen hfirst
  intro flow
  split
  · exact hsecond
  · exact h.statement (h.pure flow)

theorem loop (h : Closed E S) {cond : Run Bool} {update : Run Unit} (hcond : E Bool cond)
    (hbody : E Flow body) (hupdate : E Unit update) (fuel : Nat) :
    E Flow (loop cond body update fuel) := by
  induction fuel with
  | zero => exact h.throw _
  | succ fuel ih =>
    apply h.bind hcond
    intro b
    split
    · apply h.bind hbody
      intro flow
      split
      · exact h.pure _
      · exact h.pure _
      · exact h.bind hupdate fun _ => ih
      · exact h.bind hupdate fun _ => ih
    · exact h.pure _

theorem forValues (h : Closed E S) {body : Value → Run Flow} (hbody : ∀ v, E Flow (body v))
    (items : List Value) : E Flow (forValues body items) := by
  induction items with
  | nil => exact h.pure _
  | cons v items ih =>
    apply h.bind (hbody v)
    intro flow
    split
    · exact h.pure _
    · exact h.pure _
    · exact ih
    · exact ih

theorem firstMatch (h : Closed E S) {subject : Value} {equal : Span → Value → Value → Run Bool}
    {cases : List (Span × Run Value)} (hequal : ∀ span v w, E Bool (equal span v w))
    (hcases : ∀ c ∈ cases, E Value c.2) : E (Option Nat) (firstMatch subject equal cases) := by
  induction cases with
  | nil => exact h.pure _
  | cons c rest ih =>
    rw [List.forall_mem_cons] at hcases
    apply h.bind hcases.1
    intro v
    apply h.bind (hequal _ _ _)
    intro b
    split
    · exact h.pure _
    · exact h.bind (ih hcases.2) fun i? => h.pure _

theorem fallThrough (h : Closed E S) {bodies : List (Run Flow)} (hbodies : ∀ x ∈ bodies, E Flow x) :
    E Flow (fallThrough bodies) := by
  induction bodies with
  | nil => exact h.pure _
  | cons x rest ih =>
    rw [List.forall_mem_cons] at hbodies
    apply h.bind hbodies.1
    intro flow
    split
    · exact ih hbodies.2
    · exact h.pure _
    · exact h.pure _

theorem equalForSwitch (h : Closed E S) {span : Span} {v w : Value} :
    E Bool (equalForSwitch span v w) := by
  apply h.bind (h.liftAt _)
  intro u
  split
  · exact h.pure _
  · exact h.pure _

end Control

/-! Trees -/

section Trees

variable {cx : Context}

theorem evaluate_binary (h : Closed E S) {span : Span} {op : BinaryOp} {l r : Expr}
    (hl : E Value (evaluate cx l)) (hr : E Value (evaluate cx r)) :
    E Value (evaluate cx (.binary span op l r)) := by
  by_cases hop : op.cls = .logical
  · have hsecond : E Value (do return Value.bool (← Evaluation.condition r.span (evaluate cx r))) :=
      h.bind (h.condition hr) fun b => h.pure _
    cases op with
    | and =>
      apply h.bind (h.condition hl)
      intro b
      split
      · exact hsecond
      · exact h.pure _
    | or =>
      apply h.bind (h.condition hl)
      intro b
      split
      · exact h.pure _
      · exact hsecond
    | _ => cases hop
  · rw [Evaluation.evaluate_binary cx span l r hop]
    apply h.bind (h.literal hl)
    intro v
    exact h.bind (h.literal hr) fun w => h.liftAt _

theorem call (h : Closed E S) (hcx : ∀ span f args, E Value (cx.invoke span f args)) {span : Span}
    {callee : Expr} {args : List Expr} {v : Value}
    (hargs : E (List Value) (evaluateAll cx Evaluation.literal args)) :
    E Value (match v with
      | .function f => do
        if f.arity ≠ args.length then Evaluation.raise span (.arityMismatch f.name f.arity args.length)
        let values ← evaluateAll cx Evaluation.literal args
        match f with
        | .embedded f => Evaluation.liftAt span (f.apply values)
        | .closure f => cx.invoke span f values
      | v =>
        match callee with
        | .var _ name => Evaluation.raise span (.notCallable name)
        | _ => Evaluation.raise span (.notCallable v.kind.text)) := by
  split
  · next f =>
    have happly : E Value (do
        let values ← evaluateAll cx Evaluation.literal args
        match f with
        | .embedded f => Evaluation.liftAt span (f.apply values)
        | .closure f => cx.invoke span f values) := by
      apply h.bind hargs
      intro values
      cases f with
      | embedded f => exact h.liftAt _
      | closure f => exact hcx span f values
    dsimp only
    split
    · exact h.bind (h.raise _) fun _ => happly
    · exact happly
  · split
    · exact h.raise _
    · exact h.raise _

mutual

theorem evaluate (h : Closed E S) (hcx : ∀ span f args, E Value (cx.invoke span f args)) :
    ∀ e : Expr, E Value (evaluate cx e)
  | .literal _ _ => h.liftAt _
  | .binary _ _ l r => h.evaluate_binary (h.evaluate hcx l) (h.evaluate hcx r)
  | .unary _ _ e => h.bind (h.literal (h.evaluate hcx e)) fun _ => h.liftAt _
  | .grouping _ e => h.evaluate hcx e
  | .var _ _ => h.readVariable
  | .assign _ _ _ e => h.bind (h.literal (h.evaluate hcx e)) fun _ => h.assign
  | .step _ _ _ => h.stepVariable
  | .ternary _ c t f => by
    apply h.bind (h.condition (h.evaluate hcx c))
    intro b
    split
    · exact h.evaluate hcx t
    · exact h.evaluate hcx f
  | .arrayLiteral _ items =>
    h.bind (h.evaluateAll hcx (fun _ _ hx => h.literal hx) items) fun _ => h.liftAt _
  | .index _ _ i => by
    apply h.bind (h.literal (h.evaluate hcx i))
    intro v
    exact h.bind (h.liftAt _) fun _ => h.readElement
  | .indexAssign _ _ i _ e => by
    apply h.bind (h.literal (h.evaluate hcx i))
    intro v
    apply h.bind (h.liftAt _)
    intro position
    exact h.bind (h.literal (h.evaluate hcx e)) fun _ => h.writeElement
  | .indexOf _ _ e => h.bind (h.literal (h.evaluate hcx e)) fun _ => h.positionOf
  | .length _ _ => h.bind h.readArray fun _ => h.pure _
  | .join _ _ => h.bind h.readArray fun _ => h.pure _
  | .call _ callee args => by
    apply h.bind (h.evaluate hcx callee)
    intro v
    exact h.call hcx (h.evaluateAll hcx (fun _ _ hx => h.literal hx) args)

theorem evaluateAll (h : Closed E S) (hcx : ∀ span f args, E Value (cx.invoke span f args))
    {check : Span → Run Value → Run Value}
    (hcheck : ∀ span x, E Value x → E Value (check span x)) :
    ∀ es : List Expr, E (List Value) (evaluateAll cx check es)
  | [] => h.pure _
  | e :: es => by
    apply h.bind (hcheck _ _ (h.evaluate hcx e))
    intro v
    exact h.bind (h.evaluateAll hcx hcheck es) fun vs => h.pure _

end

theorem convertedElement (h : Closed E S) (hcx : ∀ span f args, E Value (cx.invoke span f args))
    {elem : Kind} {e : Expr} : E Value (convertedElement cx elem e) :=
  h.bind (h.literal (h.evaluate hcx e)) fun _ => h.liftAt _

mutual

theorem element (h : Closed E S) (hcx : ∀ span f args, E Value (cx.invoke span f args)) (s : Scalar)
    (dims : Nat) : ∀ e : Expr, E Value (element cx s dims e)
  | .arrayLiteral _ inner => by
    unfold Evaluation.element
    split
    · exact h.bind (h.elements hcx s (dims - 1) inner) fun _ => h.pure _
    · exact h.convertedElement hcx
  | .literal .. | .binary .. | .unary .. | .grouping .. | .var .. | .assign .. | .step ..
  | .ternary .. | .index .. | .indexAssign .. | .indexOf .. | .length .. | .join ..
  | .call .. => h.convertedElement hcx

theorem elements (h : Closed E S) (hcx : ∀ span f args, E Value (cx.invoke span f args)) (s : Scalar)
    (dims : Nat) : ∀ es : List Expr, E (List Value) (elements cx s dims es)
  | [] => h.pure _
  | e :: es => by
    apply h.bind (h.element hcx s dims e)
    intro v
    exact h.bind (h.elements hcx s dims es) fun vs => h.pure _

end

theorem initialArray (h : Closed E S) (hcx : ∀ span f args, E Value (cx.invoke span f args))
    {span : Span} (init : ArrayInit) (s : Scalar) (dims : Nat) :
    E Value (initialArray cx span init s dims) := by
  cases init with
  | values items => exact h.bind (h.elements hcx s dims items) fun _ => h.pure _
  | sized length => exact h.bind (h.literal (h.evaluate hcx length)) fun _ => h.liftAt _
  | copyOf source => exact h.copyArray

theorem roundTest (h : Closed E S) (hcx : ∀ span f args, E Value (cx.invoke span f args)) :
    ∀ c : Option Expr, E Bool (roundTest cx c)
  | none => h.pure _
  | some c => h.condition (h.evaluate hcx c)

theorem roundUpdate (h : Closed E S) (hcx : ∀ span f args, E Value (cx.invoke span f args)) :
    ∀ update : Option Expr, E Unit (roundUpdate cx update)
  | none => h.pure _
  | some e => h.bind (h.evaluate hcx e) fun _ => h.pure _

def Executes (E S : (α : Type) → Run α → Prop) (cx : Context) (s : Stmt) : Prop :=
  S Flow (Evaluation.execute cx s) ∧ E Flow (asBody s.isBlock (Evaluation.execute cx s))

theorem executes_of_not_isBlock (h : Closed E S) {s : Stmt} (hs : s.isBlock = false)
    (hrun : S Flow (Evaluation.execute cx s)) : Executes E S cx s := by
  refine ⟨hrun, ?_⟩
  rw [hs]
  exact h.inScope hrun

theorem executes_of_expression (h : Closed E S) {s : Stmt}
    (hrun : E Flow (Evaluation.execute cx s)) : Executes E S cx s := by
  refine ⟨h.statement hrun, ?_⟩
  unfold asBody
  split
  · exact hrun
  · exact h.inScope (h.statement hrun)

mutual

theorem executes (h : Closed E S) (hcx : ∀ span f args, E Value (cx.invoke span f args)) :
    ∀ s : Stmt, Executes E S cx s
  | .varDecl _ _ _ none => by
    apply h.executes_of_not_isBlock rfl
    apply h.andThen (h.statement (h.pure none))
    intro v?
    exact h.andThen (h.bindChecked _) fun _ => h.statement (h.pure _)
  | .varDecl _ _ _ (some e) => by
    apply h.executes_of_not_isBlock rfl
    unfold Evaluation.execute
    simp only [bind_map_left]
    apply h.andThen (h.statement (h.evaluate hcx e))
    intro v
    exact h.andThen (h.bindChecked _) fun _ => h.statement (h.pure _)
  | .arrayDecl _ _ _ _ init => by
    apply h.executes_of_not_isBlock rfl
    apply h.andThen (h.declareArray fun s n => h.initialArray hcx init s n)
    exact fun _ => h.statement (h.pure _)
  | .funcDecl .. => by
    apply h.executes_of_not_isBlock rfl
    exact h.andThen h.declareFunction fun _ => h.statement (h.pure _)
  | .expr _ e => by
    apply h.executes_of_expression
    exact h.bind (h.evaluate hcx e) fun _ => h.pure _
  | .print _ args => by
    apply h.executes_of_not_isBlock rfl
    apply h.andThen (h.statement (h.evaluateAll hcx (fun _ _ hx => hx) args))
    intro values
    exact h.andThen (h.printLine values) fun _ => h.statement (h.pure _)
  | .block _ body => by
    apply h.executes_of_expression
    exact h.inScope (h.executeAll hcx body)
  | .conditional _ c t f => by
    apply h.executes_of_expression
    unfold Evaluation.execute
    apply h.bind (h.condition (h.evaluate hcx c))
    intro b
    split
    · exact (h.executes hcx t).2
    · cases f with
      | none => exact h.pure _
      | some f => exact (h.executes hcx f).2
  | .whileLoop _ c body => by
    apply h.executes_of_expression
    rw [execute_whileLoop]
    exact h.loop (h.roundTest hcx (some c)) (h.executes hcx body).2 (h.pure _) cx.fuel
  | .forLoop _ init c update body => by
    apply h.executes_of_expression
    rw [execute_forLoop]
    have hloop := h.statement
      (h.loop (h.roundTest hcx c) (h.executes hcx body).2 (h.roundUpdate hcx update) cx.fuel)
    apply h.inScope
    cases init with
    | none => exact hloop
    | some init => exact h.andThen (h.executes hcx init).1 fun _ => hloop
  | .forEach _ _ _ _ body => by
    apply h.executes_of_expression
    apply h.bind h.readArray
    rintro ⟨elem, items⟩
    apply h.bind (h.liftAt _)
    intro _
    apply h.forValues
    intro v
    exact h.inScope (h.andThen (h.declare ..) fun _ => h.statement (h.executes hcx body).2)
  | .switch _ subject cases default => by
    apply h.executes_of_expression
    unfold Evaluation.execute
    apply h.bind (h.literal (h.evaluate hcx subject))
    intro v
    apply h.bind (h.firstMatch (fun _ _ _ => h.equalForSwitch) (h.caseValues hcx cases))
    intro position?
    apply h.fallThrough
    intro x hx
    rcases mem_bodiesFrom hx with hx | hx
    · exact h.caseBodies hcx cases x hx
    · cases default with
      | none => cases hx
      | some body =>
        cases hx
        exact h.inScope (h.executeAll hcx body)
  | .breakStmt _ => h.executes_of_expression (h.pure _)
  | .continueStmt _ => h.executes_of_expression (h.pure _)
  | .returnStmt _ none => h.executes_of_expression (h.pure _)
  | .returnStmt _ (some e) => by
    apply h.executes_of_expression
    exact h.bind (h.literal (h.evaluate hcx e)) fun _ => h.pure _

theorem executeAll (h : Closed E S) (hcx : ∀ span f args, E Value (cx.invoke span f args)) :
    ∀ body : List Stmt, S Flow (executeAll cx body)
  | [] => h.statement (h.pure _)
  | s :: rest => h.sequence (h.executes hcx s).1 (h.executeAll hcx rest)

theorem caseValues (h : Closed E S) (hcx : ∀ span f args, E Value (cx.invoke span f args)) :
    ∀ cases : List SwitchCase, ∀ c ∈ caseValues cx cases, E Value c.2
  | [] => by simp [Evaluation.caseValues]
  | .mk _ value _ :: rest => by
    unfold Evaluation.caseValues
    rw [List.forall_mem_cons]
    exact ⟨h.literal (h.evaluate hcx value), h.caseValues hcx rest⟩

theorem caseBodies (h : Closed E S) (hcx : ∀ span f args, E Value (cx.invoke span f args)) :
    ∀ cases : List SwitchCase, ∀ x ∈ caseBodies cx cases, E Flow x
  | [] => by simp [Evaluation.caseBodies]
  | .mk _ _ body :: rest => by
    unfold Evaluation.caseBodies
    rw [List.forall_mem_cons]
    exact ⟨h.inScope (h.executeAll hcx body), h.caseBodies hcx rest⟩

end

end Trees

/-! Calls -/

theorem declareAll (h : Closed E S) {span : Span} :
    ∀ bound : List (String × Kind × Value), S Unit (declareAll span bound)
  | [] => h.statement (h.pure _)
  | _ :: rest => h.andThen (h.declare ..) fun _ => h.declareAll rest

theorem callResult (h : Closed E S) {span : Span} {f : Closure} {flow : Flow} :
    E Value (callResult span f flow) := by
  unfold Evaluation.callResult
  split
  · exact h.raise _
  · exact h.raise _
  · split
    · exact h.pure _
    · exact h.raise _
  · split
    · exact h.pure _
    · exact h.raise _
  · split
    · exact h.liftAt _
    · exact h.raise _
    · exact h.pure _

theorem invoke (h : Closed E S) (config : EvaluatorConfig) (fuel : Nat) (span : Span) (f : Closure)
    (args : List Value) : E Value (invoke config fuel span f args) := by
  induction fuel generalizing span f args with
  | zero => exact h.throw _
  | succ fuel ih =>
    have hbody : E Value (do
        let params ← Evaluation.liftAt span (bindArguments f.params args)
        Evaluation.inCall f.scope do
          Evaluation.declareAll span params
          Evaluation.callResult span f (← Evaluation.executeAll
            ⟨config.maxArrayLength, fuel, Evaluation.invoke config fuel⟩ f.body)) := by
      apply h.bind (h.liftAt _)
      intro params
      apply h.inCall
      apply h.andThen (h.declareAll params)
      intro _
      exact h.andThen (h.executeAll ih f.body) fun flow => h.statement h.callResult
    apply h.bind h.get
    intro s
    dsimp only
    split
    · exact h.bind (h.raise _) fun _ => hbody
    · exact hbody

theorem evaluate_of (h : Closed E S) (config : EvaluatorConfig) (fuel : Nat) (e : Expr) :
    E Value (Evaluation.evaluate (.of config fuel) e) :=
  h.evaluate (h.invoke config fuel) e

theorem execute_of (h : Closed E S) (config : EvaluatorConfig) (fuel : Nat) (s : Stmt) :
    S Flow (Evaluation.execute (.of config fuel) s) :=
  (h.executes (h.invoke config fuel) s).1

end Closed

end Arbor.Evaluation
