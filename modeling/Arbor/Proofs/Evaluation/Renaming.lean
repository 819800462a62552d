import Arbor.Proofs.Evaluation.Matching
import Arbor.Proofs.Evaluation.StoreSoundness

/-!
This module contains the proof that the numbers of scopes make no difference: in arenas in which the scopes stand for
each other, every expression and every statement does the same. Expressions do so wherever they find the same names,
statements where they declare them in scopes that stand for each other.
-/

namespace Arbor.Evaluation

open Value (Renamed IsData)

/--
The calls of a context do the same for functions that stand for each other, and return no function.
-/
def Context.Renames (cx : Context) : Prop :=
  ∀ span f scope' args, (∀ v ∈ args, v.IsData) →
    Matches false (fun owner n => f.scope < n ∧ owner f.scope = scope') (cx.invoke span f args)
      (cx.invoke span { f with scope := scope' } args) fun _ _ v w => w = v ∧ v.IsData

namespace Matches

variable {cx : Context} {b : Bool}

/-! Expressions -/

theorem evaluate_binary (span : Span) (op : BinaryOp) {l r : Expr}
    (hl : Matches b Always (evaluate cx l) (evaluate cx l) Renamed)
    (hr : Matches b Always (evaluate cx r) (evaluate cx r) Renamed) :
    Coincides b (evaluate cx (.binary span op l r)) (evaluate cx (.binary span op l r)) IsData := by
  by_cases hop : op.cls = .logical
  · have hdecided (c : Bool) : Coincides b (Pure.pure (Value.bool c)) (Pure.pure (Value.bool c)) IsData :=
      Coincides.pure (.bool c)
    have hsecond : Coincides b (do return Value.bool (← condition r.span (evaluate cx r)))
        (do return Value.bool (← condition r.span (evaluate cx r))) IsData :=
      (Coincides.condition hr).bind fun b _ => hdecided b
    cases op with
    | and =>
      apply (Coincides.condition hl).bind
      intro b _
      cases b with
      | true => exact hsecond
      | false => exact hdecided false
    | or =>
      apply (Coincides.condition hl).bind
      intro b _
      cases b with
      | true => exact hdecided true
      | false => exact hsecond
    | _ => cases hop
  · rw [Evaluation.evaluate_binary cx span l r hop]
    apply hl.literal.bind
    intro v _
    apply hr.literal.bind
    intro w _
    exact Coincides.liftAt fun _ h => Value.isData_binary h

theorem call (hcx : cx.Renames) (span : Span) {callee : Expr} {args : List Expr}
    (hcallee : Matches b Always (evaluate cx callee) (evaluate cx callee) Renamed)
    (hargs : Coincides b (evaluateAll cx Evaluation.literal args) (evaluateAll cx Evaluation.literal args)
      fun vs => ∀ v ∈ vs, v.IsData) :
    Coincides b (evaluate cx (.call span callee args)) (evaluate cx (.call span callee args)) IsData := by
  unfold evaluate
  apply hcallee.bindValue
  · intro v hv
    cases v with
    | function F => cases hv
    | _ =>
      dsimp only
      split <;> exact Coincides.raise _
  · intro F
    dsimp only
    split
    · exact (Coincides.raise (D := fun _ => False) _).bind fun _ h => h.elim
    · apply hargs.bind
      intro values _
      exact Coincides.liftAt fun _ h => Value.isData_of_kind (Embedded.kind_apply h)
  · intro F scope'
    dsimp only
    have harity : (Callable.closure { F with scope := scope' }).arity = (Callable.closure F).arity := rfl
    rw [harity]
    split
    · exact ((Matches.raise (Q := fun _ _ _ _ => False) _).bind fun _ _ _ _ _ _ _ h => h.elim).pre fun _ _ _ => trivial
    · apply (hargs.keeping _).bind
      · intro values values'
        apply assuming fun _ _ h => h.1
        rintro ⟨rfl, hvalues⟩
        exact (hcx span F scope' values' hvalues).weaken.pre fun _ _ h => h.2
      · rintro owner owner' n n' howner hn ⟨hscope, rfl⟩
        exact ⟨Nat.lt_of_lt_of_le hscope hn, howner _ hscope⟩

mutual

theorem evaluate (hcx : cx.Renames) :
    ∀ e : Expr, Matches b Always (Evaluation.evaluate cx e) (Evaluation.evaluate cx e) Renamed
  | .literal _ _ => (Coincides.liftAt fun _ h => Value.isData_ofLiteral h).renamed
  | .binary span op l r => (evaluate_binary span op (evaluate hcx l) (evaluate hcx r)).renamed
  | .unary _ _ e => by
    apply (evaluate hcx e).literal.bind
    exact fun _ _ => (Coincides.liftAt fun _ h => Value.isData_unary h).renamed
  | .grouping _ e => evaluate hcx e
  | .var _ _ => readVariable
  | .assign _ _ _ e => by
    apply (evaluate hcx e).literal.bind
    exact fun _ hv => (Coincides.assign hv).renamed
  | .step _ _ _ => Coincides.stepVariable.renamed
  | .ternary _ c t f => by
    apply (Coincides.condition (evaluate hcx c)).bind
    intro b _
    cases b with
    | true => exact evaluate hcx t
    | false => exact evaluate hcx f
  | .arrayLiteral _ items => by
    apply (evaluateLiterals hcx items).bind
    exact fun _ hvalues => (Coincides.liftAt fun _ h => isData_arrayOfValues hvalues h).renamed
  | .index _ _ i => by
    apply (evaluate hcx i).literal.bind
    intro v _
    apply Coincides.bind (D := fun _ => True)
    · exact Coincides.liftAt fun _ _ => trivial
    · exact fun _ _ => Coincides.readElement.renamed
  | .indexAssign _ _ i _ e => by
    apply (evaluate hcx i).literal.bind
    intro v _
    apply Coincides.bind (D := fun _ => True)
    · exact Coincides.liftAt fun _ _ => trivial
    · intro position _
      apply (evaluate hcx e).literal.bind
      exact fun _ hw => (Coincides.writeElement hw).renamed
  | .indexOf _ _ e => by
    apply (evaluate hcx e).literal.bind
    exact fun _ _ => Coincides.positionOf.renamed
  | .length _ _ => Coincides.lengthOf.renamed
  | .join _ _ => Coincides.joined.renamed
  | .call span callee args => (call hcx span (evaluate hcx callee) (evaluateLiterals hcx args)).renamed

theorem evaluateLiterals (hcx : cx.Renames) :
    ∀ es : List Expr, Coincides b (evaluateAll cx Evaluation.literal es) (evaluateAll cx Evaluation.literal es)
      fun vs => ∀ v ∈ vs, v.IsData
  | [] => Coincides.pure (by simp)
  | e :: es => by
    apply (evaluate hcx e).literal.bind
    intro v hv
    apply (evaluateLiterals hcx es).bind
    intro vs hvs
    exact Coincides.pure (List.forall_mem_cons.mpr ⟨hv, hvs⟩)

end

/--
Values that are printed may be functions, which are displayed without their scopes.
-/
theorem evaluatePrinted (hcx : cx.Renames) (es : List Expr) :
    Matches b Always (evaluateAll cx (fun _ x => x) es) (evaluateAll cx (fun _ x => x) es)
      fun _ _ vs ws => List.Forall₂ (fun v w => w.display = v.display) vs ws := by
  induction es with
  | nil => exact pure fun _ _ _ => .nil
  | cons e es ih =>
    apply (evaluate hcx e).bind
    intro v w
    apply assuming (p := w.display = v.display) fun _ _ h => h.display_eq
    intro hdisplay
    apply (ih.pre fun _ _ _ => trivial).bind
    intro vs ws
    exact pure fun _ _ h => .cons hdisplay h

/-! Declarations -/

theorem convertedElement (hcx : cx.Renames) {elem : Kind} {e : Expr} :
    Coincides b (convertedElement cx elem e) (convertedElement cx elem e) IsData := by
  apply (evaluate hcx e).literal.bind
  intro v hv
  exact Coincides.liftAt fun _ h => isData_elementOf hv h

mutual

theorem element (hcx : cx.Renames) (s : Scalar) (dims : Nat) :
    ∀ e : Expr, Coincides b (Evaluation.element cx s dims e) (Evaluation.element cx s dims e) IsData
  | .arrayLiteral _ inner => by
    unfold Evaluation.element
    split
    · apply (elements hcx s (dims - 1) inner).bind
      exact fun vs hvs => Coincides.pure (.array _ _ hvs)
    · exact convertedElement hcx
  | .literal .. | .binary .. | .unary .. | .grouping .. | .var .. | .assign .. | .step ..
  | .ternary .. | .index .. | .indexAssign .. | .indexOf .. | .length .. | .join ..
  | .call .. => convertedElement hcx

theorem elements (hcx : cx.Renames) (s : Scalar) (dims : Nat) :
    ∀ es : List Expr, Coincides b (Evaluation.elements cx s dims es) (Evaluation.elements cx s dims es)
      fun vs => ∀ v ∈ vs, v.IsData
  | [] => Coincides.pure (by simp)
  | e :: es => by
    apply (element hcx s dims e).bind
    intro v hv
    apply (elements hcx s dims es).bind
    intro vs hvs
    exact Coincides.pure (List.forall_mem_cons.mpr ⟨hv, hvs⟩)

end

theorem initialArray (hcx : cx.Renames) {span : Span} {init : ArrayInit} (s : Scalar) (dims : Nat) :
    Coincides b (initialArray cx span init s dims) (initialArray cx span init s dims) IsData := by
  cases init with
  | values items =>
    apply (elements hcx s dims items).bind
    exact fun vs hvs => Coincides.pure (.array _ _ hvs)
  | sized length =>
    apply (evaluate hcx length).literal.bind
    exact fun v _ => Coincides.liftAt fun _ h => isData_zeroArray h
  | copyOf source => exact Coincides.copyArray

theorem declareVariable {span : Span} {ty : TypeName} {name : String} {v v' : Value} :
    Matches true (fun owner n => v.Renamed owner n v') (declareVariable span ty name (some v))
      (declareVariable span ty name (some v')) fun _ _ _ _ => True := by
  apply assuming fun _ _ hv => checkDeclared_eq hv ty
  rintro ⟨heq, hdata⟩
  unfold Evaluation.declareVariable
  rw [heq]
  exact ((Coincides.bindChecked hdata).pre fun _ _ _ => trivial).imp fun _ _ _ _ _ => trivial

/-! Statements -/

theorem roundTest (hcx : cx.Renames) (c : Option Expr) :
    Coincides b (roundTest cx c) (roundTest cx c) fun _ => True := by
  cases c with
  | none => exact Coincides.pure trivial
  | some c => exact Coincides.condition (evaluate hcx c)

theorem roundUpdate (hcx : cx.Renames) (update : Option Expr) :
    Coincides b (roundUpdate cx update) (roundUpdate cx update) fun _ => True := by
  cases update with
  | none => exact Coincides.pure trivial
  | some e => exact Coincides.discarded (evaluate hcx e)

theorem equalForSwitch {span : Span} {v w : Value} :
    Coincides b (equalForSwitch span v w) (equalForSwitch span v w) fun _ => True := by
  apply Coincides.bind (D := fun _ => True)
  · exact Coincides.liftAt fun _ _ => trivial
  · intro u _
    cases u <;> exact Coincides.pure trivial

theorem forEachRound {span : Span} {name : String} {elem : Kind} {v : Value} {body : Run Flow} (hv : v.IsData)
    (hbody : Coincides true body body Flow.IsData) :
    Coincides b
      (Evaluation.inScope do
        Evaluation.declare span name elem v
        body)
      (Evaluation.inScope do
        Evaluation.declare span name elem v
        body) Flow.IsData := by
  apply inScope
  exact (Coincides.declare hv).bind fun _ _ => hbody

mutual

theorem execute (hcx : cx.Renames) :
    ∀ s : Stmt, Coincides true (Evaluation.execute cx s) (Evaluation.execute cx s) Flow.IsData
  | .varDecl span ty name none => by
    have hdata (v : Value) (h : (checkDeclared ty none).2 = .ok v) : v.IsData := by
      unfold checkDeclared at h
      split at h <;> cases h
      exact Value.isData_zero (.scalar _)
    exact (Coincides.bindChecked hdata).bind fun _ _ => Coincides.pure trivial
  | .varDecl _ _ _ (some e) => by
    unfold Evaluation.execute
    simp only [bind_map_left]
    apply (evaluate hcx e).bind
    intro v v'
    apply declareVariable.bind
    exact fun _ _ => pure fun _ _ _ => ⟨rfl, trivial⟩
  | .arrayDecl _ _ _ _ _ => by
    apply (Coincides.declareArray fun s n => initialArray hcx s n).bind
    exact fun _ _ => Coincides.pure trivial
  | .funcDecl _ _ _ _ _ => by
    apply declareFunction.bind
    exact fun _ _ => pure fun _ _ _ => ⟨rfl, trivial⟩
  | .expr _ e => by
    apply (evaluate hcx e).bind
    exact fun _ _ => pure fun _ _ _ => ⟨rfl, trivial⟩
  | .print _ args => by
    apply (evaluatePrinted hcx args).bind
    intro vs ws
    apply assuming fun _ _ h => h
    intro hdisplay
    apply Matches.pre _ fun _ _ _ => trivial
    exact (Coincides.printLine hdisplay).bind fun _ _ => Coincides.pure trivial
  | .block _ body => inScope (executeAll hcx body)
  | .conditional _ c t f => by
    unfold Evaluation.execute
    apply (Coincides.condition (evaluate hcx c)).bind
    intro b _
    cases b with
    | true => exact (execute hcx t).asBody _
    | false =>
      cases f with
      | none => exact Coincides.pure trivial
      | some f => exact (execute hcx f).asBody _
  | .whileLoop _ c body => by
    rw [execute_whileLoop]
    exact (roundTest hcx (some c)).loop ((execute hcx body).asBody _) (roundUpdate hcx none) _
  | .forLoop _ init c update body => by
    have hloop := (roundTest hcx c).loop ((execute hcx body).asBody body.isBlock) (roundUpdate hcx update) cx.fuel
    rw [execute_forLoop]
    apply inScope
    cases init with
    | none => exact hloop
    | some init => exact (execute hcx init).bind fun _ _ => hloop
  | .forEach _ _ _ _ body => by
    apply Coincides.readArray.bind
    rintro ⟨elem, items⟩ hitems
    apply Coincides.bind (D := fun _ => True)
    · exact Coincides.liftAt fun _ _ => trivial
    · intro _ _
      apply Coincides.forValues
      intro v hv
      exact forEachRound (hitems v hv) ((execute hcx body).asBody _)
  | .switch _ subject cases default => by
    unfold Evaluation.execute
    apply (evaluate hcx subject).literal.bind
    intro v _
    apply (Coincides.firstMatch (fun _ _ _ => equalForSwitch) (caseValues hcx cases)).bind
    intro position? _
    apply Coincides.fallThrough
    intro x hx
    rcases mem_bodiesFrom hx with hx | hx
    · exact caseBodies hcx cases x hx
    · cases default with
      | none => cases hx
      | some body =>
        cases hx
        exact inScope (executeAll hcx body)
  | .breakStmt _ => Coincides.pure trivial
  | .continueStmt _ => Coincides.pure trivial
  | .returnStmt _ value => by
    unfold Evaluation.execute
    cases value with
    | none => exact Coincides.pure trivial
    | some e =>
      apply (evaluate hcx e).literal.bind
      exact fun _ hv => Coincides.pure hv

theorem executeAll (hcx : cx.Renames) :
    ∀ body : List Stmt, Coincides true (Evaluation.executeAll cx body) (Evaluation.executeAll cx body) Flow.IsData
  | [] => Coincides.pure trivial
  | s :: rest => (execute hcx s).andThen (executeAll hcx rest)

theorem caseValues (hcx : cx.Renames) :
    ∀ cases : List SwitchCase, ∀ c ∈ Evaluation.caseValues cx cases, Coincides true c.2 c.2 IsData
  | [] => by simp [Evaluation.caseValues]
  | .mk _ value _ :: rest => by
    unfold Evaluation.caseValues
    rw [List.forall_mem_cons]
    exact ⟨(evaluate hcx value).literal, caseValues hcx rest⟩

theorem caseBodies (hcx : cx.Renames) :
    ∀ cases : List SwitchCase, ∀ x ∈ Evaluation.caseBodies cx cases, Coincides true x x Flow.IsData
  | [] => by simp [Evaluation.caseBodies]
  | .mk _ _ body :: rest => by
    unfold Evaluation.caseBodies
    rw [List.forall_mem_cons]
    exact ⟨inScope (executeAll hcx body), caseBodies hcx rest⟩

end

/-! Calls -/

theorem declareAll {span : Span} {bound : List (String × Kind × Value)} (hbound : ∀ p ∈ bound, p.2.2.IsData) :
    Coincides true (declareAll span bound) (declareAll span bound) fun _ => True := by
  induction bound with
  | nil => exact Coincides.pure trivial
  | cons p rest ih =>
    rw [List.forall_mem_cons] at hbound
    exact (Coincides.declare hbound.1).bind fun _ _ => ih hbound.2

theorem callResult {span : Span} {f : Closure} {flow : Flow} (hflow : flow.IsData) :
    Coincides b (callResult span f flow) (callResult span f flow) IsData := by
  unfold Evaluation.callResult
  split
  · exact Coincides.raise _
  · exact Coincides.raise _
  · split
    · exact Coincides.pure .null
    · exact Coincides.raise _
  · split
    · exact Coincides.pure .null
    · exact Coincides.raise _
  · split
    · exact Coincides.liftAt fun _ h => Value.isData_of_coerce hflow h
    · exact Coincides.raise _
    · exact Coincides.pure hflow

end Matches

theorem Context.renames_invoke (config : EvaluatorConfig) (fuel maxArrayLength loops : Nat) :
    Context.Renames ⟨maxArrayLength, loops, Evaluation.invoke config fuel⟩ := by
  intro span f scope' args hargs
  dsimp only
  induction fuel generalizing span f scope' args loops with
  | zero => exact Matches.throw _
  | succ fuel ih =>
    have hbody : Matches false (fun owner n => f.scope < n ∧ owner f.scope = scope')
        (do
          let params ← liftAt span (bindArguments f.params args)
          inCall f.scope do
            declareAll span params
            callResult span f (← executeAll ⟨config.maxArrayLength, fuel, Evaluation.invoke config fuel⟩ f.body))
        (do
          let params ← liftAt span (bindArguments f.params args)
          inCall scope' do
            declareAll span params
            callResult span { f with scope := scope' }
              (← executeAll ⟨config.maxArrayLength, fuel, Evaluation.invoke config fuel⟩ f.body))
        fun _ _ v w => w = v ∧ v.IsData := by
      apply Matches.liftAt_bind
      intro params hparams
      apply Matches.inCall
      apply (Matches.declareAll (isData_bindArguments hargs hparams)).bind
      intro _ _
      apply (Matches.executeAll (fun span f scope' args hargs => ih fuel span f scope' args hargs) f.body).bind
      intro flow hflow
      exact Matches.callResult hflow
    apply Matches.get
    intro s s' hdepth
    dsimp only
    rw [hdepth]
    split
    · exact (Matches.raise (Q := fun _ _ _ _ => False) _).bind fun _ _ _ _ _ _ _ h => h.elim
    · exact hbody

theorem Context.renames_of (config : EvaluatorConfig) (fuel : Nat) : (Context.of config fuel).Renames :=
  renames_invoke config fuel _ _

/-! Moments -/

def State.Regular (s : State) : Prop :=
  s.Renames id s

namespace State.Regular

variable {s t : State}

theorem of_continues {owner : Nat → Nat} (h : State.Continues id owner s s t t) : t.Regular :=
  ⟨h.env.renames.congr fun i hi => (h.env.renames.owner_eq i hi).symm, rfl, rfl⟩

theorem enter (hs : s.Regular) {scope : Nat} (hscope : scope < s.env.scopes.size) :
    Environment.Renames id (s.env.enter scope) (s.env.enter scope) := by
  have hentered := hs.env.enter hscope hscope (.here scope)
  rwa [show Function.update id s.env.scopes.size s.env.scopes.size = id from
    Function.update_eq_self s.env.scopes.size id] at hentered

theorem push (hs : s.Regular) : State.Regular { s with env := s.env.push } :=
  ⟨hs.enter hs.env.current_lt, rfl, rfl⟩

theorem enterCall (hs : s.Regular) {scope : Nat} (hscope : scope < s.env.scopes.size) :
    State.Regular { s with env := s.env.enter scope, callDepth := s.callDepth + 1 } :=
  ⟨hs.enter hscope, rfl, rfl⟩

theorem enterBody (hs : s.Regular) (body : Stmt) : (s.enterBody body).Regular := by
  unfold State.enterBody
  split
  · exact hs
  · exact hs.push

end State.Regular

section Regular

variable {α : Type} {b : Bool} {x : Run α} {Q : (Nat → Nat) → Nat → α → α → Prop} {D : α → Prop} {s t : State}
  {a : α}

theorem Matches.regular (hx : Matches b Always x x Q) (hs : s.Regular) : (endState (x s)).Regular := by
  have hends := hx id s s hs (fun _ => rfl) trivial
  revert hends
  cases x s with
  | ok a t =>
    rintro ⟨owner, hcontinues, -⟩
    exact .of_continues hcontinues
  | error h t =>
    rintro ⟨-, owner, hcontinues⟩
    exact .of_continues hcontinues

theorem Matches.regular_of_ok (hx : Matches b Always x x Q) (hs : s.Regular) (h : x s = .ok a t) : t.Regular := by
  have hend := hx.regular hs
  rwa [h] at hend

theorem Matches.regular_of_error (hx : Matches b Always x x Q) (hs : s.Regular) {h : Halt}
    (he : x s = .error h t) : t.Regular := by
  have hend := hx.regular hs
  rwa [he] at hend

theorem Matches.ok (hx : Matches b Always x x Q) (hs : s.Regular) (h : x s = .ok a t) :
    s.env.pinned ≤ t.env.pinned ∧ ∃ owner, Q owner t.env.pinned a a := by
  have hends := hx id s s hs (fun _ => rfl) trivial
  rw [h] at hends
  obtain ⟨owner, hcontinues, hQ⟩ := hends
  exact ⟨hcontinues.env.pinned, owner, hQ⟩

theorem Coincides.ok (hx : Coincides b x x D) (hs : s.Regular) (h : x s = .ok a t) : D a ∧ t.Regular := by
  obtain ⟨-, owner, -, ha⟩ := Matches.ok hx hs h
  exact ⟨ha, hx.regular_of_ok hs h⟩

end Regular

namespace Session

theorem regular_start (config : EvaluatorConfig) : (start config).state.Regular := by
  refine ⟨?_, rfl, rfl⟩
  have hscope (i : Nat) (hi : i < 1) : startEnvironment.scope i = startEnvironment.scope 0 := by
    rw [Nat.lt_one_iff.mp hi]
  constructor
  case mono => exact fun _ _ _ _ => id
  case bound => exact fun _ => id
  case bindings =>
    intro i hi
    have hi : i < 1 := hi
    have hstart : ((start config).state.env.scope i).bindings =
        (Embedded.all.map fun f => (f.name, ⟨.function, .function (.embedded f)⟩)).reverse :=
      congrArg Scope.bindings (hscope i hi)
    have hsame : RenamedBindings id 1 ((start config).state.env.scope i).bindings
        ((start config).state.env.scope i).bindings := by
      apply List.forall₂_same.mpr
      intro entry hentry
      rw [hstart, List.mem_reverse, List.mem_map] at hentry
      obtain ⟨f, -, rfl⟩ := hentry
      exact ⟨rfl, rfl, .embedded f⟩
    exact hsame
  case outermost => exact fun _ _ => id
  case parent =>
    intro i hi parent hparent
    have hi : i < 1 := hi
    have hnone : (startEnvironment.scope i).parent = none := congrArg Scope.parent (hscope i hi)
    cases hnone.symm.trans hparent
  case pinned => exact fun _ => id
  case pinned_le => exact Nat.le_refl 1
  case behind => exact Nat.le_refl 1
  case current_lt => exact Nat.zero_lt_one
  case current_lt' => exact Nat.zero_lt_one
  case current => exact .here _

theorem regular_runAll (config : EvaluatorConfig) (fuel : Nat) (stmts : List Stmt) (s : State) (hs : s.Regular) :
    (runAll config fuel stmts s).2.1.Regular :=
  runAll_relates (R := fun s s' => s.Regular → s'.Regular) (fun _ => id) (fun hss' hs's'' => hs's'' ∘ hss')
    (fun stmt _ => (Matches.execute (Context.renames_of config fuel) stmt).regular) stmts s hs

theorem Reached.regular {config : EvaluatorConfig} {session : Session} (h : session.Reached config) :
    session.state.Regular := by
  induction h with
  | start => exact regular_start config
  | run _ _ ih => exact regular_runAll _ _ _ _ ih

end Session

def Task.IsData : Task → Prop
  | .values _ _ _ _ items => ∀ v ∈ items, v.IsData
  | _ => True

theorem Starts.regular {config : EvaluatorConfig} {task : Task} {s : State} (h : Starts config task s) :
    s.Regular ∧ task.IsData := by
  have hcx := Context.renames_of config
  have hevaluate (fuel : Nat) (e : Expr) :
      Matches true Always (evaluate (.of config fuel) e) (evaluate (.of config fuel) e) Renamed :=
    Matches.evaluate (hcx fuel) e
  have hliteral (fuel : Nat) (e : Expr) : Coincides true (literal e.span (evaluate (.of config fuel) e))
      (literal e.span (evaluate (.of config fuel) e)) IsData := (hevaluate fuel e).literal
  have hcondition (fuel : Nat) (e : Expr) : Coincides true (condition e.span (evaluate (.of config fuel) e))
      (condition e.span (evaluate (.of config fuel) e)) fun _ => True := Coincides.condition (hevaluate fuel e)
  have hliterals (fuel : Nat) (es : List Expr) : Coincides true (evaluateAll (.of config fuel) literal es)
      (evaluateAll (.of config fuel) literal es) fun vs => ∀ v ∈ vs, v.IsData :=
    Matches.evaluateLiterals (hcx fuel) es
  have hexecute (fuel : Nat) (stmt : Stmt) := Matches.execute (hcx fuel) stmt
  have hbody (fuel : Nat) (body : Stmt) := (hexecute fuel body).asBody body.isBlock
  have htest (fuel : Nat) (c : Option Expr) := Matches.roundTest (b := true) (hcx fuel) c
  induction h with
  | program p hsession => exact ⟨hsession.regular, trivial⟩
  | nextStatement _ hrun _ ih => exact ⟨((hexecute _ _).ok ih.1 hrun).2, trivial⟩
  | afterError _ hrun _ ih => exact ⟨(hexecute _ _).regular_of_error ih.1 hrun, trivial⟩
  | right _ _ hl ih => exact ⟨((hliteral _ _).ok ih.1 hl).2, trivial⟩
  | undecided _ _ hl _ ih => exact ⟨((hcondition _ _).ok ih.1 hl).2, trivial⟩
  | chosen _ hc ih => exact ⟨((hcondition _ _).ok ih.1 hc).2, trivial⟩
  | item _ hbefore ih => exact ⟨((hliterals _ _).ok ih.1 hbefore).2, trivial⟩
  | stored _ hi _ ih => exact ⟨((hliteral _ _).ok ih.1 hi).2, trivial⟩
  | argument _ hcallee _ hbefore ih =>
    have hs₁ := (hevaluate _ _).regular_of_ok ih.1 hcallee
    exact ⟨((hliterals _ _).ok hs₁ hbefore).2, trivial⟩
  | called _ hcallee _ hargs _ hbound hdeclare ih =>
    have hs₁ := (hevaluate _ _).regular_of_ok ih.1 hcallee
    obtain ⟨-, owner, hf⟩ := Matches.ok (hevaluate _ _) ih.1 hcallee
    obtain ⟨hvs, hs₂⟩ := (hliterals _ _).ok hs₁ hargs
    have hpinned := (Matches.ok (hliterals _ _) hs₁ hargs).1
    have hentered := hs₂.enterCall (Nat.lt_of_lt_of_le hf.scope_lt (Nat.le_trans hpinned hs₂.env.pinned_le))
    exact ⟨((Matches.declareAll (isData_bindArguments hvs hbound)).ok hentered hdeclare).2, trivial⟩
  | sublist _ hbefore _ ih =>
    exact ⟨((Matches.elements (b := true) (hcx _) _ _ _).ok ih.1 hbefore).2, trivial⟩
  | element _ hbefore _ ih =>
    exact ⟨((Matches.elements (b := true) (hcx _) _ _ _).ok ih.1 hbefore).2, trivial⟩
  | printed _ hbefore ih =>
    exact ⟨(Matches.evaluatePrinted (b := true) (hcx _) _).regular_of_ok ih.1 hbefore, trivial⟩
  | block _ ih => exact ⟨ih.1.push, trivial⟩
  | next _ hrun ih => exact ⟨((hexecute _ _).ok ih.1 hrun).2, trivial⟩
  | branch _ hc _ ih => exact ⟨((hcondition _ _).ok ih.1 hc).2.enterBody _, trivial⟩
  | prepared _ ih => exact ⟨ih.1.push, trivial⟩
  | forLoop _ hinit ih => exact ⟨((hexecute _ _).ok ih.1.push hinit).2, trivial⟩
  | unprepared _ ih => exact ⟨ih.1.push, trivial⟩
  | roundBody _ hc ih => exact ⟨((htest _ _).ok ih.1 hc).2.enterBody _, trivial⟩
  | roundUpdate _ hc hrun _ ih => exact ⟨((hbody _ _).ok ((htest _ _).ok ih.1 hc).2 hrun).2, trivial⟩
  | nextRound _ hc hrun _ hu ih =>
    have hs₂ := ((hbody _ _).ok ((htest _ _).ok ih.1 hc).2 hrun).2
    exact ⟨((Matches.roundUpdate (b := true) (hcx _) _).ok hs₂ hu).2, trivial⟩
  | forEach _ hread _ ih =>
    obtain ⟨hitems, hs'⟩ := (Coincides.readArray (e := true)).ok ih.1 hread
    exact ⟨hs', hitems⟩
  | value _ hdeclare ih =>
    obtain ⟨hs, hitems⟩ := ih
    exact ⟨((Coincides.declare (hitems _ List.mem_cons_self)).ok hs.push hdeclare).2.enterBody _, trivial⟩
  | nextValue _ hrun _ ih =>
    obtain ⟨hs, hitems⟩ := ih
    rw [Task.IsData, List.forall_mem_cons] at hitems
    exact ⟨((Matches.forEachRound (b := true) hitems.1 (hbody _ _)).ok hs hrun).2, hitems.2⟩
  | switch _ hv ih => exact ⟨((hliteral _ _).ok ih.1 hv).2, trivial⟩
  | nextCase _ hv _ ih => exact ⟨((hliteral _ _).ok ih.1 hv).2, trivial⟩
  | matched _ hv hmatch ih =>
    have hs₁ := ((hliteral _ _).ok ih.1 hv).2
    exact ⟨((Coincides.firstMatch (fun _ _ _ => Matches.equalForSwitch) (Matches.caseValues (hcx _) _)).ok hs₁
      hmatch).2, trivial⟩
  | body _ ih => exact ⟨ih.1.push, trivial⟩
  | nextBody _ hrun ih =>
    exact ⟨(Matches.inScope (e := true) (Matches.executeAll (hcx _) _)).regular_of_ok ih.1 hrun, trivial⟩
  | _ => exact ⟨(by assumption : State.Regular _ ∧ _).1, trivial⟩

theorem Moment.regular {config : EvaluatorConfig} {s : State} (h : Moment config s) : s.Regular := by
  cases h with
  | start h => exact h.regular.1
  | evaluated fuel h =>
    exact (Matches.evaluate (b := true) (Context.renames_of config fuel) _).regular h.regular.1
  | executed fuel h => exact (Matches.execute (Context.renames_of config fuel) _).regular h.regular.1

end Arbor.Evaluation
