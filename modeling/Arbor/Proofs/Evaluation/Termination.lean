import Arbor.Proofs.Evaluation.LoopFree
import Arbor.Proofs.Evaluation.WellKinded

/-!
This module contains the proof that a session of loop-free programs ends: fuel for one call more than may be open is
enough for all of it, whatever its functions call and its loops over elements do to their arrays.

Two things make a run end. Within a body it only goes down in the tree, and over the elements that an array had before
the first round. From one body to another it opens a call, and of these only as many may be open as the settings allow;
the fuel of a call and the number of calls around it always add up to more than that.
-/

namespace Arbor.Evaluation

/--
That many calls are open, and every function that is bound has a loop-free body.
-/
structure State.Tame (depth : Nat) (s : State) : Prop where
  env : s.env.LoopFree
  callDepth : s.callDepth = depth

/--
A run ends with a result that has a property or with an error of the program, and not for lack of fuel. The same calls
are open as before, and every function that is bound still has a loop-free body.
-/
def Ends {α : Type} (depth : Nat) (x : Run α) (Q : α → Prop) : Prop :=
  Triple (State.Tame depth) x (fun a s => Q a ∧ s.Tame depth) (fun h s => h ≠ .outOfFuel ∧ s.Tame depth)

namespace Ends

variable {α β : Type} {depth : Nat}

theorem pure {Q : α → Prop} {a : α} (h : Q a) : Ends depth (Pure.pure a) Q :=
  Triple.pure fun _ hs => ⟨h, hs⟩

theorem bind {x : Run α} {f : α → Run β} {R : α → Prop} {Q : β → Prop} (hx : Ends depth x R)
    (hf : ∀ a, R a → Ends depth (f a) Q) : Ends depth (x >>= f) Q := by
  apply Triple.bind hx
  intro a
  apply Triple.assuming fun _ hs => hs.1
  intro ha
  exact (hf a ha).pre fun _ hs => hs.2

theorem raise {Q : α → Prop} {span : Span} {e : EvalErrorKind} :
    Ends depth (Evaluation.raise span e) Q :=
  Triple.raise fun _ hs => ⟨by simp, hs⟩

theorem liftAt {span : Span} {x : Except EvalErrorKind α} {Q : α → Prop}
    (h : ∀ a, x = .ok a → Q a) : Ends depth (Evaluation.liftAt span x) Q :=
  Triple.liftAt (fun a _ hx hs => ⟨h a hx, hs⟩) (fun _ _ _ hs => ⟨by simp, hs⟩)

theorem environment : Ends depth Evaluation.environment Environment.LoopFree :=
  Triple.environment fun _ hs => ⟨hs.env, hs⟩

theorem setEnvironment {env : Environment} (h : env.LoopFree) :
    Ends depth (Evaluation.setEnvironment env) fun _ => True :=
  Triple.setEnvironment fun _ hs => ⟨trivial, h, hs.callDepth⟩

theorem inScope {x : Run α} {Q : α → Prop} (hx : Ends depth x Q) :
    Ends depth (Evaluation.inScope x) Q := by
  apply Triple.inScope
  apply hx.conseq
  · rintro _ ⟨t, ht, rfl⟩
    exact ⟨ht.env.push, ht.callDepth⟩
  · intro a s hs
    exact ⟨hs.1, hs.2.env.pop, hs.2.callDepth⟩
  · intro h s hs
    exact ⟨hs.1, hs.2.env.pop, hs.2.callDepth⟩

theorem inCall {x : Run α} {Q : α → Prop} {scope : Nat} (hx : Ends (depth + 1) x Q) :
    Ends depth (Evaluation.inCall scope x) Q := by
  intro s hs
  have hx := hx { s with env := s.env.enter scope, callDepth := s.callDepth + 1 }
    ⟨hs.env.enter scope, congrArg (· + 1) hs.callDepth⟩
  unfold Evaluation.inCall
  revert hx
  dsimp only
  cases x { s with env := s.env.enter scope, callDepth := s.callDepth + 1 } with
  | ok a s' => exact fun hx => ⟨hx.1, hx.2.env.leave _, by simp [hx.2.callDepth]⟩
  | error e s' => exact fun hx => ⟨hx.1, hx.2.env.leave _, by simp [hx.2.callDepth]⟩

theorem literal {span : Span} {x : Run Value} {Q : Value → Prop} (hx : Ends depth x Q) :
    Ends depth (Evaluation.literal span x) Q :=
  Triple.literal hx (fun _ _ hs _ => hs) (fun _ _ _ hs => ⟨by simp, hs.2⟩)

theorem condition {span : Span} {x : Run Value} {Q : Value → Prop} (hx : Ends depth x Q) :
    Ends depth (Evaluation.condition span x) fun _ => True :=
  Triple.condition hx.literal (fun _ _ hs => ⟨trivial, hs.2⟩) (fun _ _ hs _ => ⟨by simp, hs.2⟩)

end Ends

section Variables

open Value (LoopFree)

variable {depth : Nat} {span : Span} {name : String}

theorem ends_binding {β : Type} {f : Binding → Run β} {Q : β → Prop}
    (hf : ∀ b : Binding, b.value.LoopFree → Ends depth (f b) Q) :
    Ends depth (do f (← liftAt span ((← environment).get name))) Q := by
  apply Ends.environment.bind
  intro env henv
  apply (Ends.liftAt fun b hb => henv.get hb).bind
  exact hf

theorem ends_update {f : Environment → Except EvalErrorKind Environment}
    (hf : ∀ env env', env.LoopFree → f env = .ok env' → env'.LoopFree) :
    Ends depth (do setEnvironment (← liftAt span (f (← environment)))) fun _ => True := by
  apply Ends.environment.bind
  intro env henv
  apply (Ends.liftAt fun env' h => hf env env' henv h).bind
  exact fun _ h => Ends.setEnvironment h

theorem ends_readVariable : Ends depth (readVariable span name) LoopFree :=
  ends_binding fun _ hb => Ends.pure hb

theorem ends_writeVariable {v : Value} (hv : v.LoopFree) :
    Ends depth (writeVariable span name v) fun _ => True :=
  ends_update (f := fun env => env.set name v) fun _ _ henv h => henv.set hv h

theorem ends_declare {kind : Kind} {v : Value} (hv : v.LoopFree) :
    Ends depth (declare span name kind v) fun _ => True :=
  ends_update (f := fun env => env.declare name kind v) fun _ _ henv h => henv.declare hv h

theorem ends_bindChecked {kind : Kind} {checked : Except EvalErrorKind Value}
    (hchecked : ∀ v, checked = .ok v → v.LoopFree) :
    Ends depth (bindChecked span name kind checked) fun _ => True := by
  cases checked with
  | ok v => exact ends_declare (hchecked v rfl)
  | error e =>
    apply (ends_declare .null).bind
    exact fun _ _ => Ends.raise

theorem loopFree_checkDeclared {ty : TypeName} {value? : Option Value} {v : Value}
    (hvalue : ∀ w, value? = some w → w.LoopFree) (h : (checkDeclared ty value?).2 = .ok v) :
    v.LoopFree := by
  unfold checkDeclared at h
  split at h
  · next s _ =>
    cases value? with
    | some w => exact (hvalue w rfl).coerce h
    | none =>
      cases h
      exact Value.loopFree_zero (.scalar s)
  · cases h
  · cases value? with
    | none => simp at h
    | some w =>
      dsimp only at h
      split at h
      · cases h
        exact hvalue v rfl
      · cases h

theorem ends_declareVariable {ty : TypeName} {value? : Option Value}
    (hvalue : ∀ v, value? = some v → v.LoopFree) :
    Ends depth (declareVariable span ty name value?) fun _ => True :=
  ends_bindChecked fun _ h => loopFree_checkDeclared hvalue h

theorem ends_assignValue {kind : Kind} {v : Value} (hv : v.LoopFree) :
    Ends depth (assignValue span name kind v) LoopFree := by
  unfold assignValue
  split
  · next hstored =>
    apply (ends_writeVariable (hv.coerce hstored)).bind
    exact fun _ _ => Ends.pure (hv.coerce hstored)
  · exact (ends_writeVariable .null).bind fun _ _ => Ends.raise

theorem ends_assign {op : AssignOp} {v : Value} (hv : v.LoopFree) :
    Ends depth (assign span name op v) LoopFree := by
  apply ends_binding
  intro b _
  dsimp only
  split
  · exact ends_assignValue hv
  · exact (Ends.liftAt fun _ h => Value.loopFree_binary h).bind fun _ hw => ends_assignValue hw

theorem ends_stepVariable {op : StepOp} : Ends depth (stepVariable span name op) LoopFree := by
  apply ends_readVariable.bind
  intro v _
  apply (Ends.liftAt fun _ h => Value.loopFree_step h).bind
  intro stepped hstepped
  exact (ends_writeVariable hstepped).bind fun _ _ => Ends.pure hstepped

theorem ends_declareFunction {returns : TypeName} {params : List Param} {body : List Stmt}
    (hbody : LoopFreeBody body) :
    Ends depth (declareFunction span returns name params body) fun _ => True := by
  apply Ends.environment.bind
  intro env henv
  apply (Ends.setEnvironment henv.capture).bind
  exact fun _ _ => ends_declare (.closure _ hbody)

theorem ends_printLine {values : List Value} : Ends depth (printLine values) fun _ => True :=
  fun _ hs => ⟨trivial, hs.env, hs.callDepth⟩

end Variables

section Arrays

open Value (LoopFree)

variable {depth : Nat} {span : Span} {name : String}

theorem loopFree_elementOf {v w : Value} {elem : Kind} (hv : v.LoopFree) (h : elementOf v elem = .ok w) :
    w.LoopFree := by
  unfold elementOf at h
  split at h
  · next hw =>
    cases h
    exact hv.coerce hw
  · cases h

theorem loopFree_arrayOfValues {values : List Value} {v : Value} (hvalues : ∀ w ∈ values, w.LoopFree)
    (h : arrayOfValues values = .ok v) : v.LoopFree := by
  unfold arrayOfValues at h
  split at h
  · cases h
  · split at h
    · cases h
    · cases h
      exact .array _ _ hvalues

theorem loopFree_zeroArray {limit : Nat} {elem : Kind} {n v : Value} (h : zeroArray limit elem n = .ok v) :
    v.LoopFree := by
  unfold zeroArray at h
  split at h
  · split at h
    · cases h
    · split at h <;> cases h
      apply LoopFree.array
      intro w hw
      rw [List.eq_of_mem_replicate hw]
      exact Value.loopFree_zero elem
  · cases h

theorem ends_readArray : Ends depth (readArray span name) fun a => ∀ v ∈ a.2, v.LoopFree := by
  apply ends_readVariable.bind
  intro v hv
  split
  · exact Ends.pure fun _ hw => hv.of_mem hw
  · exact Ends.raise

theorem ends_copyArray {kind : Kind} : Ends depth (copyArray span kind name) LoopFree := by
  apply ends_readVariable.bind
  intro v hv
  split
  · split
    · exact Ends.pure hv
    · exact Ends.raise
  · exact Ends.raise

theorem ends_readElement {i : Int} : Ends depth (readElement span name i) LoopFree := by
  apply ends_readArray.bind
  rintro ⟨elem, items⟩ hitems
  apply (Ends.liftAt (Q := fun _ => True) fun _ _ => trivial).bind
  intro slot _
  split
  · next hv => exact Ends.pure (hitems _ (List.mem_of_getElem? hv))
  · exact Ends.raise

theorem ends_writeElement {i : Int} {op : AssignOp} {v : Value} (hv : v.LoopFree) :
    Ends depth (writeElement span name i op v) LoopFree := by
  apply ends_readArray.bind
  rintro ⟨elem, items⟩ hitems
  apply ends_readElement.bind
  intro old _
  have hstore {v : Value} (hv : v.LoopFree) : Ends depth (do
      let stored ← liftAt span (elementOf v elem)
      writeVariable span name (.array elem (items.set i.toNat stored))
      return stored) LoopFree := by
    apply (Ends.liftAt fun _ h => loopFree_elementOf hv h).bind
    intro stored hstored
    have harray : LoopFree (.array elem (items.set i.toNat stored)) := by
      apply LoopFree.array
      intro w hw
      rcases List.mem_or_eq_of_mem_set hw with hw | rfl
      · exact hitems w hw
      · exact hstored
    exact (ends_writeVariable harray).bind fun _ _ => Ends.pure hstored
  dsimp only
  split
  · exact hstore hv
  · exact (Ends.liftAt fun _ h => Value.loopFree_binary h).bind fun _ hw => hstore hw

theorem ends_positionOf {v : Value} : Ends depth (positionOf span name v) LoopFree := by
  apply ends_readArray.bind
  intro a _
  dsimp only
  split
  · exact Ends.pure (.int _)
  · exact Ends.pure (.int _)

theorem ends_lengthOf : Ends depth (lengthOf span name) LoopFree :=
  ends_readArray.bind fun _ _ => Ends.pure (.int _)

theorem ends_joined : Ends depth (joined span name) LoopFree :=
  ends_readArray.bind fun _ _ => Ends.pure (.text _)

theorem ends_checkArray {x : Run Value} {Q : Value → Prop} (hx : Ends depth x Q) :
    Ends depth (checkArray x) fun checked => ∀ v, checked = .ok v → Q v := by
  apply Triple.checkArray hx
  · rintro v s ⟨hv, hs⟩
    refine ⟨fun w hw => ?_, hs⟩
    cases hw
    exact hv
  · exact fun _ _ hs => ⟨nofun, hs.2⟩

theorem ends_declareArray {elem : TypeName} {dims : UInt32} {build : Scalar → Nat → Run Value}
    (hbuild : ∀ s n, Ends depth (build s n) LoopFree) :
    Ends depth (declareArray span elem dims name build) fun _ => True := by
  unfold declareArray
  split
  · exact Ends.raise
  · apply (ends_checkArray (hbuild _ _)).bind
    exact fun _ hchecked => ends_bindChecked hchecked

end Arrays

section Control

variable {depth : Nat}

def Flow.LoopFree : Flow → Prop
  | .returning (some v) _ => v.LoopFree
  | _ => True

theorem ends_andThen {first second : Run Flow} (hfirst : Ends depth first Flow.LoopFree)
    (hsecond : Ends depth second Flow.LoopFree) : Ends depth (andThen first second) Flow.LoopFree := by
  apply hfirst.bind
  intro flow hflow
  split
  · exact hsecond
  · exact Ends.pure hflow

theorem ends_forValues {body : Value → Run Flow} {items : List Value}
    (hbody : ∀ v ∈ items, Ends depth (body v) Flow.LoopFree) :
    Ends depth (forValues body items) Flow.LoopFree := by
  -- The body may change the array, but the rounds are over the elements that there were before the first one.
  induction items with
  | nil => exact Ends.pure trivial
  | cons v items ih =>
    have ih := ih fun w hw => hbody w (List.mem_cons_of_mem v hw)
    apply (hbody v List.mem_cons_self).bind
    intro flow hflow
    split
    · exact Ends.pure trivial
    · exact Ends.pure hflow
    · exact ih
    · exact ih

theorem ends_firstMatch {subject : Value} {equal : Span → Value → Value → Run Bool}
    {cases : List (Span × Run Value)} (hequal : ∀ span v w, Ends depth (equal span v w) fun _ => True)
    (hcases : ∀ c ∈ cases, Ends depth c.2 Value.LoopFree) :
    Ends depth (firstMatch subject equal cases) fun _ => True := by
  induction cases with
  | nil => exact Ends.pure trivial
  | cons c rest ih =>
    apply (hcases c List.mem_cons_self).bind
    intro v _
    apply (hequal _ _ _).bind
    intro b _
    split
    · exact Ends.pure trivial
    · apply (ih fun c hc => hcases c (List.mem_cons_of_mem _ hc)).bind
      exact fun _ _ => Ends.pure trivial

theorem ends_fallThrough {bodies : List (Run Flow)} (hbodies : ∀ x ∈ bodies, Ends depth x Flow.LoopFree) :
    Ends depth (fallThrough bodies) Flow.LoopFree := by
  induction bodies with
  | nil => exact Ends.pure trivial
  | cons x rest ih =>
    apply (hbodies x List.mem_cons_self).bind
    intro flow hflow
    split
    · exact ih fun y hy => hbodies y (List.mem_cons_of_mem x hy)
    · exact Ends.pure trivial
    · exact Ends.pure hflow

theorem ends_asBody {isBlock : Bool} {x : Run Flow} (hx : Ends depth x Flow.LoopFree) :
    Ends depth (asBody isBlock x) Flow.LoopFree := by
  unfold asBody
  split
  · exact hx
  · exact hx.inScope

theorem ends_equalForSwitch {span : Span} {v w : Value} :
    Ends depth (equalForSwitch span v w) fun _ => True := by
  apply (Ends.liftAt (Q := fun _ => True) fun _ _ => trivial).bind
  intro u _
  split
  · exact Ends.pure trivial
  · exact Ends.pure trivial

end Control

section Trees

open Value (LoopFree)

variable {cx : Context} {depth : Nat}

def Context.Ends (cx : Context) (depth : Nat) : Prop :=
  ∀ (span : Span) (f : Closure) (args : List Value), LoopFreeBody f.body → (∀ v ∈ args, v.LoopFree) →
    Evaluation.Ends depth (cx.invoke span f args) LoopFree

theorem ends_evaluate_binary {span : Span} {op : BinaryOp} {l r : Expr}
    (hl : Ends depth (evaluate cx l) LoopFree) (hr : Ends depth (evaluate cx r) LoopFree) :
    Ends depth (evaluate cx (.binary span op l r)) LoopFree := by
  by_cases hop : op.cls = .logical
  · have hsecond : Ends depth (do return Value.bool (← condition r.span (evaluate cx r))) LoopFree :=
      hr.condition.bind fun b _ => Ends.pure (.bool b)
    cases op with
    | and =>
      apply hl.condition.bind
      intro b _
      split
      · exact hsecond
      · exact Ends.pure (.bool false)
    | or =>
      apply hl.condition.bind
      intro b _
      split
      · exact Ends.pure (.bool true)
      · exact hsecond
    | _ => cases hop
  · rw [evaluate_binary cx span l r hop]
    apply hl.literal.bind
    intro v _
    apply hr.literal.bind
    intro w _
    exact Ends.liftAt fun _ h => Value.loopFree_binary h

theorem ends_apply (hcx : cx.Ends depth) {span : Span} {f : Callable} {args : Run (List Value)}
    (hf : LoopFree (.function f)) (hargs : Ends depth args fun vs => ∀ v ∈ vs, v.LoopFree) :
    Ends depth (do
      let values ← args
      match f with
      | .embedded f => liftAt span (f.apply values)
      | .closure f => cx.invoke span f values) LoopFree := by
  apply hargs.bind
  intro values hvalues
  cases f with
  | embedded f => exact Ends.liftAt fun _ h => Value.loopFree_of_kind (Embedded.kind_apply h)
  | closure f => exact hcx span f values hf.body hvalues

theorem ends_call (hcx : cx.Ends depth) {span : Span} {callee : Expr} {args : List Expr} {v : Value}
    (hv : v.LoopFree) (hargs : Ends depth (evaluateAll cx literal args) fun vs => ∀ v ∈ vs, v.LoopFree) :
    Ends depth (match v with
      | .function f => do
        if f.arity ≠ args.length then raise span (.arityMismatch f.name f.arity args.length)
        let values ← evaluateAll cx literal args
        match f with
        | .embedded f => liftAt span (f.apply values)
        | .closure f => cx.invoke span f values
      | v =>
        match callee with
        | .var _ name => raise span (.notCallable name)
        | _ => raise span (.notCallable v.kind.text)) LoopFree := by
  split
  · dsimp only
    split
    · exact Ends.raise.bind (R := fun _ => True) fun _ _ => ends_apply hcx hv hargs
    · exact ends_apply hcx hv hargs
  · split
    · exact Ends.raise
    · exact Ends.raise

mutual

theorem ends_evaluate (hcx : cx.Ends depth) : ∀ e : Expr, Ends depth (evaluate cx e) LoopFree
  | .literal _ _ => Ends.liftAt fun _ h => Value.loopFree_of_kind (Value.kind_ofLiteral h)
  | .binary _ _ l r => ends_evaluate_binary (ends_evaluate hcx l) (ends_evaluate hcx r)
  | .unary _ _ e => by
    apply (ends_evaluate hcx e).literal.bind
    exact fun _ _ => Ends.liftAt fun _ h => Value.loopFree_unary h
  | .grouping _ e => ends_evaluate hcx e
  | .var _ _ => ends_readVariable
  | .assign _ _ _ e => by
    apply (ends_evaluate hcx e).literal.bind
    exact fun _ hv => ends_assign hv
  | .step _ _ _ => ends_stepVariable
  | .ternary _ c t f => by
    apply (ends_evaluate hcx c).condition.bind
    intro b _
    split
    · exact ends_evaluate hcx t
    · exact ends_evaluate hcx f
  | .arrayLiteral _ items => by
    apply (ends_evaluateAll hcx (fun _ _ h => h.literal) items).bind
    exact fun _ hvalues => Ends.liftAt fun _ h => loopFree_arrayOfValues hvalues h
  | .index _ _ i => by
    apply (ends_evaluate hcx i).literal.bind
    intro v _
    apply (Ends.liftAt (Q := fun _ => True) fun _ _ => trivial).bind
    exact fun _ _ => ends_readElement
  | .indexAssign _ _ i _ e => by
    apply (ends_evaluate hcx i).literal.bind
    intro v _
    apply (Ends.liftAt (Q := fun _ => True) fun _ _ => trivial).bind
    intro position _
    apply (ends_evaluate hcx e).literal.bind
    exact fun _ hw => ends_writeElement hw
  | .indexOf _ _ e => by
    apply (ends_evaluate hcx e).literal.bind
    exact fun _ _ => ends_positionOf
  | .length _ _ => ends_lengthOf
  | .join _ _ => ends_joined
  | .call _ callee args => by
    apply (ends_evaluate hcx callee).bind
    intro v hv
    exact ends_call hcx hv (ends_evaluateAll hcx (fun _ _ h => h.literal) args)

theorem ends_evaluateAll (hcx : cx.Ends depth) {check : Span → Run Value → Run Value}
    (hcheck : ∀ span x, Ends depth x LoopFree → Ends depth (check span x) LoopFree) :
    ∀ es : List Expr, Ends depth (evaluateAll cx check es) fun vs => ∀ v ∈ vs, v.LoopFree
  | [] => Ends.pure (by simp)
  | e :: es => by
    apply (hcheck _ _ (ends_evaluate hcx e)).bind
    intro v hv
    apply (ends_evaluateAll hcx hcheck es).bind
    intro vs hvs
    exact Ends.pure (List.forall_mem_cons.mpr ⟨hv, hvs⟩)

end

theorem ends_convertedElement (hcx : cx.Ends depth) {elem : Kind} {e : Expr} :
    Ends depth (convertedElement cx elem e) LoopFree := by
  apply (ends_evaluate hcx e).literal.bind
  intro v hv
  exact Ends.liftAt fun _ h => loopFree_elementOf hv h

mutual

theorem ends_element (hcx : cx.Ends depth) (s : Scalar) (dims : Nat) :
    ∀ e : Expr, Ends depth (element cx s dims e) LoopFree
  | .arrayLiteral _ inner => by
    unfold element
    split
    · apply (ends_elements hcx s (dims - 1) inner).bind
      exact fun _ hvs => Ends.pure (.array _ _ hvs)
    · exact ends_convertedElement hcx
  | .literal .. | .binary .. | .unary .. | .grouping .. | .var .. | .assign .. | .step ..
  | .ternary .. | .index .. | .indexAssign .. | .indexOf .. | .length .. | .join ..
  | .call .. => ends_convertedElement hcx

theorem ends_elements (hcx : cx.Ends depth) (s : Scalar) (dims : Nat) :
    ∀ es : List Expr, Ends depth (elements cx s dims es) fun vs => ∀ v ∈ vs, v.LoopFree
  | [] => Ends.pure (by simp)
  | e :: es => by
    apply (ends_element hcx s dims e).bind
    intro v hv
    apply (ends_elements hcx s dims es).bind
    intro vs hvs
    exact Ends.pure (List.forall_mem_cons.mpr ⟨hv, hvs⟩)

end

theorem ends_initialArray (hcx : cx.Ends depth) {span : Span} {init : ArrayInit} (s : Scalar)
    (dims : Nat) : Ends depth (initialArray cx span init s dims) LoopFree := by
  cases init with
  | values items =>
    apply (ends_elements hcx s dims items).bind
    exact fun _ hvs => Ends.pure (.array _ _ hvs)
  | sized length =>
    apply (ends_evaluate hcx length).literal.bind
    intro v _
    exact Ends.liftAt fun _ h => loopFree_zeroArray h
  | copyOf source => exact ends_copyArray

mutual

theorem ends_execute (hcx : cx.Ends depth) :
    ∀ s : Stmt, LoopFreeBody [s] → Ends depth (execute cx s) Flow.LoopFree
  | .varDecl _ _ _ none, _ => by
    have hvalue (v : Value) (h : none = some v) : v.LoopFree := nomatch h
    apply (ends_declareVariable hvalue).bind
    exact fun _ _ => Ends.pure trivial
  | .varDecl _ _ _ (some e), _ => by
    unfold execute
    simp only [bind_map_left]
    apply (ends_evaluate hcx e).bind
    intro v hv
    have hvalue (w : Value) (h : some v = some w) : w.LoopFree := by
      cases h
      exact hv
    apply (ends_declareVariable hvalue).bind
    exact fun _ _ => Ends.pure trivial
  | .arrayDecl _ _ _ _ _, _ => by
    apply (ends_declareArray fun s n => ends_initialArray hcx s n).bind
    exact fun _ _ => Ends.pure trivial
  | .funcDecl _ _ _ _ _, hs => by
    apply (ends_declareFunction (loopFreeBody_funcDecl hs)).bind
    exact fun _ _ => Ends.pure trivial
  | .expr _ e, _ => by
    apply (ends_evaluate hcx e).bind
    exact fun _ _ => Ends.pure trivial
  | .print _ args, _ => by
    apply (ends_evaluateAll hcx (fun _ _ h => h) args).bind
    intro values _
    apply ends_printLine.bind
    exact fun _ _ => Ends.pure trivial
  | .block _ body, hs => (ends_executeAll hcx body (Agreement.eachPart_block hs)).inScope
  | .conditional _ c t none, hs => by
    unfold execute
    apply (ends_evaluate hcx c).condition.bind
    intro b _
    split
    · exact ends_asBody (ends_execute hcx t (Agreement.eachPart_whenTrue hs))
    · exact Ends.pure trivial
  | .conditional _ c t (some f), hs => by
    unfold execute
    apply (ends_evaluate hcx c).condition.bind
    intro b _
    split
    · exact ends_asBody (ends_execute hcx t (Agreement.eachPart_whenTrue hs))
    · exact ends_asBody (ends_execute hcx f (Agreement.eachPart_whenFalse hs))
  | .whileLoop _ _ _, hs => by
    have := Agreement.eachPart_head hs
    cases this
  | .forLoop _ _ _ _ _, hs => by
    have := Agreement.eachPart_head hs
    cases this
  | .forEach _ _ _ _ body, hs => by
    have hbody := ends_execute hcx body (Agreement.eachPart_forEach hs)
    apply ends_readArray.bind
    rintro ⟨elem, items⟩ hitems
    apply (Ends.liftAt (Q := fun _ => True) fun _ _ => trivial).bind
    intro _ _
    apply ends_forValues
    intro v hv
    apply Ends.inScope
    apply (ends_declare (hitems v hv)).bind
    exact fun _ _ => ends_asBody hbody
  | .switch _ subject cases default, hs => by
    unfold execute
    apply (ends_evaluate hcx subject).literal.bind
    intro v _
    apply (ends_firstMatch (fun _ _ _ => ends_equalForSwitch) (ends_caseValues hcx cases)).bind
    intro position? _
    apply ends_fallThrough
    intro x hx
    rcases mem_bodiesFrom hx with hx | hx
    · exact ends_caseBodies hcx cases (fun body hbody => Agreement.eachPart_switch hs
        (List.mem_append_left _ hbody)) x hx
    · cases default with
      | none => cases hx
      | some body =>
        cases hx
        have hbody := Agreement.eachPart_switch hs (List.mem_append_right _ (List.mem_singleton_self body))
        exact (ends_executeAll hcx body hbody).inScope
  | .breakStmt _, _ => Ends.pure trivial
  | .continueStmt _, _ => Ends.pure trivial
  | .returnStmt _ none, _ => Ends.pure trivial
  | .returnStmt _ (some e), _ => by
    apply (ends_evaluate hcx e).literal.bind
    exact fun _ hv => Ends.pure hv

theorem ends_executeAll (hcx : cx.Ends depth) :
    ∀ body : List Stmt, LoopFreeBody body → Ends depth (executeAll cx body) Flow.LoopFree
  | [], _ => Ends.pure trivial
  | s :: rest, hbody => by
    obtain ⟨hs, hrest⟩ := loopFreeBody_cons hbody
    exact ends_andThen (ends_execute hcx s hs) (ends_executeAll hcx rest hrest)

theorem ends_caseValues (hcx : cx.Ends depth) :
    ∀ cases : List SwitchCase, ∀ c ∈ caseValues cx cases, Ends depth c.2 LoopFree
  | [] => by simp [caseValues]
  | .mk _ value _ :: rest => by
    unfold caseValues
    rw [List.forall_mem_cons]
    exact ⟨(ends_evaluate hcx value).literal, ends_caseValues hcx rest⟩

theorem ends_caseBodies (hcx : cx.Ends depth) :
    ∀ cases : List SwitchCase, (∀ body ∈ cases.map SwitchCase.body, LoopFreeBody body) →
      ∀ x ∈ caseBodies cx cases, Ends depth x Flow.LoopFree
  | [], _ => by simp [caseBodies]
  | .mk _ _ body :: rest, hbodies => by
    rw [List.map_cons, List.forall_mem_cons] at hbodies
    unfold caseBodies
    rw [List.forall_mem_cons]
    exact ⟨(ends_executeAll hcx body hbodies.1).inScope, ends_caseBodies hcx rest hbodies.2⟩

end

end Trees

/-! Calls -/

section Calls

variable {depth : Nat} {span : Span}

theorem loopFree_bindArguments {params : List Param} {values : List Value}
    {bound : List (String × Kind × Value)} (hvalues : ∀ v ∈ values, v.LoopFree)
    (h : bindArguments params values = .ok bound) : ∀ p ∈ bound, p.2.2.LoopFree := by
  induction params generalizing values bound with
  | nil =>
    cases h
    simp
  | cons p ps ih =>
    cases values with
    | nil =>
      cases h
      simp
    | cons v vs =>
      rw [List.forall_mem_cons] at hvalues
      simp only [bindArguments, bind, Except.bind] at h
      split at h
      · cases h
      · next stored hstored =>
        split at h
        · cases h
        · next rest hrest =>
          cases h
          exact List.forall_mem_cons.mpr ⟨hvalues.1.coerce hstored, ih hvalues.2 hrest⟩

theorem ends_declareAll {bound : List (String × Kind × Value)} (hbound : ∀ p ∈ bound, p.2.2.LoopFree) :
    Ends depth (declareAll span bound) fun _ => True := by
  induction bound with
  | nil => exact Ends.pure trivial
  | cons p rest ih =>
    rw [List.forall_mem_cons] at hbound
    apply (ends_declare hbound.1).bind
    exact fun _ _ => ih hbound.2

theorem ends_callResult {f : Closure} {flow : Flow} (hflow : flow.LoopFree) :
    Ends depth (callResult span f flow) Value.LoopFree := by
  unfold callResult
  split
  · exact Ends.raise
  · exact Ends.raise
  · split
    · exact Ends.pure .null
    · exact Ends.raise
  · split
    · exact Ends.pure .null
    · exact Ends.raise
  · split
    · exact Ends.liftAt fun _ h => Value.LoopFree.coerce hflow h
    · exact Ends.raise
    · exact Ends.pure hflow

theorem ends_invoke (config : EvaluatorConfig) {fuel : Nat} (f : Closure) (args : List Value)
    (hfuel : config.maxCallDepth < fuel + depth) (hf : LoopFreeBody f.body)
    (hargs : ∀ v ∈ args, v.LoopFree) (hdepth : depth ≤ config.maxCallDepth) :
    Ends depth (invoke config fuel span f args) Value.LoopFree := by
  -- A call inside has less fuel by one and is open with one call more, so their sum stays above the limit.
  induction fuel generalizing depth span f args with
  | zero => omega
  | succ fuel ih =>
    have hbody (hdepth : depth < config.maxCallDepth) : Ends depth (do
        let params ← liftAt span (bindArguments f.params args)
        inCall f.scope do
          declareAll span params
          callResult span f
            (← executeAll ⟨config.maxArrayLength, fuel, invoke config fuel⟩ f.body)) Value.LoopFree := by
      apply (Ends.liftAt fun _ h => loopFree_bindArguments hargs h).bind
      intro params hparams
      apply Ends.inCall
      apply (ends_declareAll hparams).bind
      intro _ _
      have hcx : Context.Ends ⟨config.maxArrayLength, fuel, invoke config fuel⟩ (depth + 1) :=
        fun _ g values hg hvalues => ih g values (by omega) hg hvalues (by omega)
      apply (ends_executeAll hcx f.body hf).bind
      exact fun flow hflow => ends_callResult hflow
    unfold invoke
    apply Ends.bind (R := fun s => s.callDepth = depth)
    · exact fun s hs => ⟨hs.callDepth, hs⟩
    · intro s hs
      dsimp only
      rw [hs]
      split
      · -- what follows the error is not run
        exact fun s hs => ⟨by simp, hs⟩
      · exact hbody (by omega)

theorem Context.ends_of (config : EvaluatorConfig) {fuel : Nat} (hfuel : config.maxCallDepth < fuel) :
    (Context.of config fuel).Ends 0 :=
  fun _ f args hf hargs => ends_invoke config f args hfuel hf hargs (Nat.zero_le _)

end Calls

/-! Sessions -/

namespace Session

def reports (session : Session) (fuel : Nat) : List Program → List Report
  | [] => []
  | program :: rest =>
    let report := session.run fuel program
    report :: report.session.reports fuel rest

theorem tame_start (config : EvaluatorConfig) : (start config).state.Tame 0 := by
  refine ⟨?_, rfl⟩
  intro s hs
  have hs : s = ⟨(Embedded.all.map fun f => (f.name, ⟨.function, .function (.embedded f)⟩)).reverse,
      none⟩ := by
    simpa [start, startEnvironment] using hs
  rw [hs]
  intro entry hentry
  simp only [List.mem_reverse, List.mem_map] at hentry
  obtain ⟨f, -, rfl⟩ := hentry
  exact .embedded f

theorem finished_runAll (config : EvaluatorConfig) {fuel : Nat} (hfuel : config.maxCallDepth < fuel)
    (stmts : List Stmt) {s : State} (hstmts : LoopFreeBody stmts) (hs : s.Tame 0) :
    (runAll config fuel stmts s).2.2 = true ∧ (runAll config fuel stmts s).2.1.Tame 0 := by
  induction stmts generalizing s with
  | nil => exact ⟨rfl, hs⟩
  | cons stmt rest ih =>
    obtain ⟨hstmt, hrest⟩ := loopFreeBody_cons hstmts
    have hstmt := ends_execute (Context.ends_of config hfuel) stmt hstmt s hs
    unfold runAll
    cases hrun : execute (Context.of config fuel) stmt s with
    | ok flow s' =>
      rw [hrun] at hstmt
      dsimp only
      split
      · exact ih hrest hstmt.2
      · split
        · exact ⟨rfl, hstmt.2⟩
        · exact ih hrest hstmt.2
    | error h s' =>
      rw [hrun] at hstmt
      cases h with
      | outOfFuel => exact absurd rfl hstmt.1
      | error e =>
        dsimp only
        split
        · exact ⟨rfl, hstmt.2⟩
        · exact ih hrest hstmt.2

/--
Every program of a session without `while` and `for` is run to its end, with as much fuel as for one call more than may
be open.
-/
theorem finished_of_loopFree (config : EvaluatorConfig) {programs : List Program}
    (hprograms : ∀ p ∈ programs, LoopFreeBody p.statements) {fuel : Nat}
    (hfuel : config.maxCallDepth < fuel) :
    ∀ report ∈ (start config).reports fuel programs, report.finished = true := by
  suffices h : ∀ session : Session, session.config = config → session.state.Tame 0 →
      ∀ report ∈ session.reports fuel programs, report.finished = true from
    h (start config) rfl (tame_start config)
  induction programs with
  | nil => simp [reports]
  | cons program rest ih =>
    rw [List.forall_mem_cons] at hprograms
    intro session hconfig hsession
    have hrun := finished_runAll config hfuel program.statements hprograms.1 hsession
    rw [← hconfig] at hrun
    rw [reports, List.forall_mem_cons]
    exact ⟨hrun.1, ih hprograms.2 _ hconfig hrun.2⟩

def recursivePrograms : List Program := [
  ⟨[.arrayDecl .unplaced .int 1 "v" (.values [.literal .unplaced (.int 1), .literal .unplaced (.int 2)]),
    .funcDecl .unplaced .void "f" [] [
      .forEach .unplaced .int "x" "v" (.block .unplaced [
        .expr .unplaced (.indexAssign .unplaced "v" (.literal .unplaced (.int 0)) .add (.var .unplaced "x")),
        .expr .unplaced (.call .unplaced (.var .unplaced "f") [])])]]⟩,
  ⟨[.expr .unplaced (.call .unplaced (.var .unplaced "f") [])]⟩]

theorem finished_recursivePrograms :
    ((start .default).reports 257 recursivePrograms).all Report.finished = true :=
  List.all_eq_true.mpr (finished_of_loopFree .default (by decide) (by decide))

end Session

end Arbor.Evaluation
