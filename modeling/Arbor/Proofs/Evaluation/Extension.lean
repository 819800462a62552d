import Mathlib.Data.List.Forall2
import Arbor.Proofs.Evaluation.Moment
import Arbor.Proofs.Evaluation.WellKinded

/-!
This module contains runs that go on where others give up. A bound of the evaluator - on its fuel or on the depth of
calls - makes a run halt for a reason of its own; under a wider bound the run of every tree is the same unless that
happened, because nothing between the bound and the statement at the top catches such a halt.
-/

namespace Arbor.Evaluation

/--
The reasons that no array declaration takes for a failed check.
-/
def Surfaces (gaveUp : Halt → Prop) : Prop :=
  ∀ e : EvalError, gaveUp (.error e) → e.kind.leavesNull = false

def MoreFuel (gaveUp : Halt → Prop) (fuel fuel' : Nat) : Prop :=
  fuel' = fuel ∨ fuel ≤ fuel' ∧ gaveUp .outOfFuel

theorem MoreFuel.of_succ {gaveUp : Halt → Prop} {fuel fuel' : Nat} (h : MoreFuel gaveUp (fuel + 1) fuel') :
    ∃ n, fuel' = n + 1 ∧ MoreFuel gaveUp fuel n := by
  rcases h with rfl | ⟨hle, hgave⟩
  · exact ⟨fuel, rfl, .inl rfl⟩
  · exact ⟨fuel' - 1, by omega, .inr ⟨by omega, hgave⟩⟩

/--
A run does what another one does in every state in which the other does not give up.
-/
def Extends (gaveUp : Halt → Prop) {α : Type} (x y : Run α) : Prop :=
  ∀ s : State, y s = x s ∨ ∃ h s', x s = .error h s' ∧ gaveUp h

namespace Extends

variable {gaveUp : Halt → Prop} {α β : Type}

theorem refl (x : Run α) : Extends gaveUp x x :=
  fun _ => .inl rfl

theorem throw {h : Halt} (hgave : gaveUp h) (y : Run α) : Extends gaveUp (throw h) y :=
  fun s => .inr ⟨h, s, rfl, hgave⟩

theorem bind {x y : Run α} {f g : α → Run β} (hx : Extends gaveUp x y)
    (hf : ∀ a, Extends gaveUp (f a) (g a)) : Extends gaveUp (x >>= f) (y >>= g) := by
  intro s
  change EStateM.bind y g s = EStateM.bind x f s ∨ ∃ h s', EStateM.bind x f s = .error h s' ∧ gaveUp h
  unfold EStateM.bind
  rcases hx s with hsame | ⟨h, s', hhalt, hgave⟩
  · rw [hsame]
    cases x s with
    | ok a s' => exact hf a s'
    | error h s' => exact .inl rfl
  · rw [hhalt]
    exact .inr ⟨h, s', rfl, hgave⟩

theorem inScope {x y : Run α} (hx : Extends gaveUp x y) : Extends gaveUp (inScope x) (inScope y) := by
  intro s
  unfold Evaluation.inScope
  rcases hx { s with env := s.env.push } with hsame | ⟨h, s', hhalt, hgave⟩
  · exact .inl (by rw [hsame])
  · exact .inr ⟨h, _, by rw [hhalt], hgave⟩

theorem inCall {scope : Nat} {x y : Run α} (hx : Extends gaveUp x y) :
    Extends gaveUp (inCall scope x) (inCall scope y) := by
  intro s
  unfold Evaluation.inCall
  rcases hx { s with env := s.env.enter scope, callDepth := s.callDepth + 1 } with
    hsame | ⟨h, s', hhalt, hgave⟩
  · exact .inl (by rw [hsame])
  · exact .inr ⟨h, _, by rw [hhalt], hgave⟩

theorem checkArray (hsurfaces : Surfaces gaveUp) {x y : Run Value} (hx : Extends gaveUp x y) :
    Extends gaveUp (checkArray x) (checkArray y) := by
  intro s
  unfold Evaluation.checkArray
  rcases hx s with hsame | ⟨h, s', hhalt, hgave⟩
  · exact .inl (by rw [hsame])
  · rw [hhalt]
    cases h with
    | outOfFuel => exact .inr ⟨.outOfFuel, s', rfl, hgave⟩
    | error e =>
      have hnot : e.kind.leavesNull = false := hsurfaces e hgave
      exact .inr ⟨.error e, s', by simp [hnot], hgave⟩

theorem literal {x y : Run Value} (hx : Extends gaveUp x y) (span : Span) :
    Extends gaveUp (literal span x) (literal span y) :=
  hx.bind fun _ => refl _

theorem condition {span : Span} {x y : Run Value} (hx : Extends gaveUp x y) :
    Extends gaveUp (condition span x) (condition span y) :=
  (hx.literal span).bind fun _ => refl _

/-! Control -/

theorem andThen {x x' y y' : Run Flow} (hx : Extends gaveUp x x') (hy : Extends gaveUp y y') :
    Extends gaveUp (andThen x y) (andThen x' y') := by
  apply hx.bind
  intro flow
  cases flow with
  | normal => exact hy
  | breaking _ | continuing _ | returning _ _ => exact refl _

theorem asBody {x y : Run Flow} (hx : Extends gaveUp x y) (isBlock : Bool) :
    Extends gaveUp (asBody isBlock x) (asBody isBlock y) := by
  cases isBlock with
  | true => exact hx
  | false => exact hx.inScope

theorem loop {cond cond' : Run Bool} {body body' : Run Flow} {update update' : Run Unit}
    (hcond : Extends gaveUp cond cond') (hbody : Extends gaveUp body body')
    (hupdate : Extends gaveUp update update') {fuel fuel' : Nat} (hfuel : MoreFuel gaveUp fuel fuel') :
    Extends gaveUp (loop cond body update fuel) (loop cond' body' update' fuel') := by
  induction fuel generalizing fuel' with
  | zero =>
    rcases hfuel with rfl | ⟨-, hgave⟩
    · exact refl _
    · exact throw hgave _
  | succ fuel ih =>
    obtain ⟨fuel', rfl, hless⟩ := hfuel.of_succ
    have hrest := ih hless
    apply hcond.bind
    intro again
    cases again with
    | false => exact refl _
    | true =>
      apply hbody.bind
      intro flow
      cases flow with
      | breaking _ | returning _ _ => exact refl _
      | normal | continuing _ => exact hupdate.bind fun _ => hrest

theorem forValues {body body' : Value → Run Flow} (hbody : ∀ v, Extends gaveUp (body v) (body' v))
    (items : List Value) : Extends gaveUp (forValues body items) (forValues body' items) := by
  induction items with
  | nil => exact refl _
  | cons v items ih =>
    apply (hbody v).bind
    intro flow
    cases flow with
    | breaking _ | returning _ _ => exact refl _
    | normal | continuing _ => exact ih

theorem firstMatch {subject : Value} {equal : Span → Value → Value → Run Bool}
    {cases cases' : List (Span × Run Value)}
    (hcases : List.Forall₂ (fun c c' => c.1 = c'.1 ∧ Extends gaveUp c.2 c'.2) cases cases') :
    Extends gaveUp (firstMatch subject equal cases) (firstMatch subject equal cases') := by
  induction hcases with
  | nil => exact refl _
  | @cons c c' rest rest' hc _ ih =>
    obtain ⟨place, value⟩ := c
    obtain ⟨place', value'⟩ := c'
    obtain ⟨rfl, hvalue⟩ := hc
    apply hvalue.bind
    intro v
    apply (refl (equal place subject v)).bind
    intro b
    cases b with
    | true => exact refl _
    | false => exact ih.bind fun _ => refl _

theorem fallThrough {bodies bodies' : List (Run Flow)}
    (hbodies : List.Forall₂ (Extends gaveUp) bodies bodies') :
    Extends gaveUp (fallThrough bodies) (fallThrough bodies') := by
  induction hbodies with
  | nil => exact refl _
  | cons hbody _ ih =>
    apply hbody.bind
    intro flow
    cases flow with
    | normal => exact ih
    | breaking _ | continuing _ | returning _ _ => exact refl _

theorem bodiesFrom {position? : Option Nat} {bodies bodies' : List (Run Flow)}
    {default? default?' : Option (Run Flow)} (hbodies : List.Forall₂ (Extends gaveUp) bodies bodies')
    (hdefault : List.Forall₂ (Extends gaveUp) default?.toList default?'.toList) :
    List.Forall₂ (Extends gaveUp) (bodiesFrom position? bodies default?)
      (bodiesFrom position? bodies' default?') := by
  unfold Evaluation.bodiesFrom
  apply List.rel_append _ hdefault
  cases position? with
  | none => exact .nil
  | some i => exact List.forall₂_drop i hbodies

end Extends

structure Context.Extended (gaveUp : Halt → Prop) (cx cx' : Context) : Prop where
  maxArrayLength : cx'.maxArrayLength = cx.maxArrayLength
  fuel : MoreFuel gaveUp cx.fuel cx'.fuel
  invoke (span : Span) (f : Closure) (args : List Value) :
    Extends gaveUp (cx.invoke span f args) (cx'.invoke span f args)

namespace Context.Extended

variable {gaveUp : Halt → Prop} {cx cx' : Context}

/-! Expressions -/

theorem evaluate_binary (span : Span) (op : BinaryOp) {l r : Expr}
    (hl : Extends gaveUp (Evaluation.evaluate cx l) (Evaluation.evaluate cx' l))
    (hr : Extends gaveUp (Evaluation.evaluate cx r) (Evaluation.evaluate cx' r)) :
    Extends gaveUp (Evaluation.evaluate cx (.binary span op l r))
      (Evaluation.evaluate cx' (.binary span op l r)) := by
  by_cases hop : op.cls = .logical
  · have hsecond : Extends gaveUp
        (do return Value.bool (← condition r.span (Evaluation.evaluate cx r)))
        (do return Value.bool (← condition r.span (Evaluation.evaluate cx' r))) :=
      hr.condition.bind fun _ => .refl _
    cases op with
    | and | or =>
      apply hl.condition.bind
      intro b
      cases b with
      | true | false => first | exact hsecond | exact .refl _
    | _ => cases hop
  · rw [Evaluation.evaluate_binary cx span l r hop, Evaluation.evaluate_binary cx' span l r hop]
    apply (hl.literal _).bind
    intro v
    exact (hr.literal _).bind fun _ => .refl _

theorem call (h : Extended gaveUp cx cx') (span : Span) (callee : Expr) {args : List Expr}
    (hcallee : Extends gaveUp (Evaluation.evaluate cx callee) (Evaluation.evaluate cx' callee))
    (hargs : Extends gaveUp (Evaluation.evaluateAll cx literal args)
      (Evaluation.evaluateAll cx' literal args)) :
    Extends gaveUp (Evaluation.evaluate cx (.call span callee args))
      (Evaluation.evaluate cx' (.call span callee args)) := by
  apply hcallee.bind
  intro v
  cases v with
  | function f =>
    dsimp only
    split
    · exact .refl _
    · apply hargs.bind
      intro values
      cases f with
      | embedded f => exact .refl _
      | closure f => exact h.invoke span f values
  | _ => exact .refl _

mutual

theorem evaluate (h : Extended gaveUp cx cx') :
    ∀ e : Expr, Extends gaveUp (Evaluation.evaluate cx e) (Evaluation.evaluate cx' e)
  | .literal _ _ => .refl _
  | .binary span op l r => evaluate_binary span op (h.evaluate l) (h.evaluate r)
  | .unary _ _ e => ((h.evaluate e).literal _).bind fun _ => .refl _
  | .grouping _ e => h.evaluate e
  | .var _ _ => .refl _
  | .assign _ _ _ e => ((h.evaluate e).literal _).bind fun _ => .refl _
  | .step _ _ _ => .refl _
  | .ternary _ c t f => by
    apply (h.evaluate c).condition.bind
    intro b
    cases b with
    | true => exact h.evaluate t
    | false => exact h.evaluate f
  | .arrayLiteral _ items => (h.evaluateAll (fun span _ _ hx => hx.literal span) items).bind fun _ => .refl _
  | .index _ _ i => ((h.evaluate i).literal _).bind fun _ => .refl _
  | .indexAssign _ _ i _ e => by
    apply ((h.evaluate i).literal _).bind
    intro v
    apply (Extends.refl _).bind
    intro position
    exact ((h.evaluate e).literal _).bind fun _ => .refl _
  | .indexOf _ _ e => ((h.evaluate e).literal _).bind fun _ => .refl _
  | .length _ _ => .refl _
  | .join _ _ => .refl _
  | .call span callee args => by
    apply h.call span callee (h.evaluate callee)
    exact h.evaluateAll (fun span _ _ hx => hx.literal span) args

theorem evaluateAll (h : Extended gaveUp cx cx') {check : Span → Run Value → Run Value}
    (hcheck : ∀ span x y, Extends gaveUp x y → Extends gaveUp (check span x) (check span y)) :
    ∀ es : List Expr, Extends gaveUp (Evaluation.evaluateAll cx check es)
      (Evaluation.evaluateAll cx' check es)
  | [] => .refl _
  | e :: es => by
    apply (hcheck e.span _ _ (h.evaluate e)).bind
    intro v
    exact (h.evaluateAll hcheck es).bind fun _ => .refl _

end

/-! Declarations -/

theorem convertedElement (h : Extended gaveUp cx cx') (elem : Kind) (e : Expr) :
    Extends gaveUp (Evaluation.convertedElement cx elem e) (Evaluation.convertedElement cx' elem e) :=
  ((h.evaluate e).literal _).bind fun _ => .refl _

mutual

theorem element (h : Extended gaveUp cx cx') (s : Scalar) (dims : Nat) :
    ∀ e : Expr, Extends gaveUp (Evaluation.element cx s dims e) (Evaluation.element cx' s dims e)
  | .arrayLiteral _ inner => by
    unfold Evaluation.element
    split
    · exact (h.elements s (dims - 1) inner).bind fun _ => .refl _
    · exact h.convertedElement _ _
  | .literal .. | .binary .. | .unary .. | .grouping .. | .var .. | .assign .. | .step ..
  | .ternary .. | .index .. | .indexAssign .. | .indexOf .. | .length .. | .join ..
  | .call .. => h.convertedElement _ _

theorem elements (h : Extended gaveUp cx cx') (s : Scalar) (dims : Nat) :
    ∀ es : List Expr, Extends gaveUp (Evaluation.elements cx s dims es)
      (Evaluation.elements cx' s dims es)
  | [] => .refl _
  | e :: es => by
    apply (h.element s dims e).bind
    intro v
    exact (h.elements s dims es).bind fun _ => .refl _

end

theorem initialArray (h : Extended gaveUp cx cx') (span : Span) (init : ArrayInit) (s : Scalar)
    (dims : Nat) : Extends gaveUp (Evaluation.initialArray cx span init s dims)
      (Evaluation.initialArray cx' span init s dims) := by
  cases init with
  | values items => exact (h.elements s dims items).bind fun _ => .refl _
  | sized length =>
    unfold Evaluation.initialArray
    rw [h.maxArrayLength]
    exact ((h.evaluate length).literal _).bind fun _ => .refl _
  | copyOf source => exact .refl _

theorem declareArray (h : Extended gaveUp cx cx') (hsurfaces : Surfaces gaveUp) (span : Span)
    (elem : TypeName) (dims : UInt32) (name : String) (init : ArrayInit) :
    Extends gaveUp (Evaluation.declareArray span elem dims name (Evaluation.initialArray cx span init))
      (Evaluation.declareArray span elem dims name (Evaluation.initialArray cx' span init)) := by
  unfold Evaluation.declareArray
  cases elem.scalar? with
  | none => exact .refl _
  | some s => exact ((h.initialArray span init s _).checkArray hsurfaces).bind fun _ => .refl _

/-! Statements -/

theorem roundTest (h : Extended gaveUp cx cx') (c : Option Expr) :
    Extends gaveUp (Evaluation.roundTest cx c) (Evaluation.roundTest cx' c) := by
  cases c with
  | none => exact .refl _
  | some c => exact (h.evaluate c).condition

theorem roundUpdate (h : Extended gaveUp cx cx') (update : Option Expr) :
    Extends gaveUp (Evaluation.roundUpdate cx update) (Evaluation.roundUpdate cx' update) := by
  cases update with
  | none => exact .refl _
  | some e => exact (h.evaluate e).bind fun _ => .refl _

theorem caseValues (h : Extended gaveUp cx cx') (cases : List SwitchCase) :
    List.Forall₂ (fun c c' => c.1 = c'.1 ∧ Extends gaveUp c.2 c'.2)
      (Evaluation.caseValues cx cases) (Evaluation.caseValues cx' cases) := by
  induction cases with
  | nil => exact .nil
  | cons c rest ih =>
    obtain ⟨span, value, body⟩ := c
    exact .cons ⟨rfl, (h.evaluate value).literal _⟩ ih

mutual

theorem execute (h : Extended gaveUp cx cx') (hsurfaces : Surfaces gaveUp) :
    ∀ s : Stmt, Extends gaveUp (Evaluation.execute cx s) (Evaluation.execute cx' s)
  | .varDecl _ _ _ none => .refl _
  | .varDecl _ _ _ (some e) => by
    unfold Evaluation.execute
    simp only [bind_map_left]
    exact (h.evaluate e).bind fun _ => .refl _
  | .arrayDecl span elem dims name init =>
    (h.declareArray hsurfaces span elem dims name init).bind fun _ => .refl _
  | .funcDecl .. => .refl _
  | .expr _ e => (h.evaluate e).bind fun _ => .refl _
  | .print _ args => (h.evaluateAll (fun _ _ _ hx => hx) args).bind fun _ => .refl _
  | .block _ body => (h.executeAll hsurfaces body).inScope
  | .conditional _ c t f => by
    unfold Evaluation.execute
    apply (h.evaluate c).condition.bind
    intro b
    cases b with
    | true => exact (h.execute hsurfaces t).asBody _
    | false =>
      cases f with
      | none => exact .refl _
      | some f => exact (h.execute hsurfaces f).asBody _
  | .whileLoop _ c body => by
    rw [execute_whileLoop, execute_whileLoop]
    exact (h.roundTest (some c)).loop ((h.execute hsurfaces body).asBody _) (h.roundUpdate none) h.fuel
  | .forLoop _ init c update body => by
    have hbody := (h.execute hsurfaces body).asBody body.isBlock
    have hloop := (h.roundTest c).loop hbody (h.roundUpdate update) h.fuel
    rw [execute_forLoop, execute_forLoop]
    apply Extends.inScope
    cases init with
    | none => exact hloop
    | some init => exact (h.execute hsurfaces init).bind fun _ => hloop
  | .forEach _ _ _ _ body => by
    apply (Extends.refl _).bind
    rintro ⟨elem, items⟩
    apply (Extends.refl _).bind
    intro _
    apply Extends.forValues
    intro v
    apply Extends.inScope
    exact (Extends.refl _).bind fun _ => (h.execute hsurfaces body).asBody _
  | .switch _ subject cases default => by
    unfold Evaluation.execute
    apply ((h.evaluate subject).literal _).bind
    intro v
    apply (Extends.firstMatch (h.caseValues cases)).bind
    intro position?
    apply Extends.fallThrough
    apply Extends.bodiesFrom (h.caseBodies hsurfaces cases)
    cases default with
    | none => exact .nil
    | some body => exact .cons (h.executeAll hsurfaces body).inScope .nil
  | .breakStmt _ => .refl _
  | .continueStmt _ => .refl _
  | .returnStmt _ none => .refl _
  | .returnStmt _ (some e) => ((h.evaluate e).literal _).bind fun _ => .refl _

theorem executeAll (h : Extended gaveUp cx cx') (hsurfaces : Surfaces gaveUp) :
    ∀ body : List Stmt, Extends gaveUp (Evaluation.executeAll cx body) (Evaluation.executeAll cx' body)
  | [] => .refl _
  | s :: rest => (h.execute hsurfaces s).andThen (h.executeAll hsurfaces rest)

theorem caseBodies (h : Extended gaveUp cx cx') (hsurfaces : Surfaces gaveUp) :
    ∀ cases : List SwitchCase,
      List.Forall₂ (Extends gaveUp) (Evaluation.caseBodies cx cases) (Evaluation.caseBodies cx' cases)
  | [] => .nil
  | .mk _ _ body :: rest => .cons (h.executeAll hsurfaces body).inScope (h.caseBodies hsurfaces rest)

end

end Context.Extended

end Arbor.Evaluation
