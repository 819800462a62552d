import Arbor.Evaluation.Session

/-!
This module contains the rules by which properties of runs are put together from those of their parts.
-/

namespace Arbor

def finished? {ε σ α : Type} : EStateM.Result ε σ α → Option (α × σ)
  | .ok a s => some (a, s)
  | .error .. => none

theorem eq_ok_of_finished? {ε σ α : Type} {x : EStateM.Result ε σ α} {a : α} {s : σ} (h : finished? x = some (a, s)) :
    x = .ok a s := by
  cases x with
  | ok =>
    cases h
    rfl
  | error => cases h

theorem ok_of_isSome_finished? {ε σ α : Type} {x : EStateM.Result ε σ α} (h : (finished? x).isSome = true) :
    ∃ a s, x = .ok a s := by
  obtain ⟨⟨a, s⟩, hfinished⟩ := Option.isSome_iff_exists.mp h
  exact ⟨a, s, eq_ok_of_finished? hfinished⟩

namespace Evaluation

/--
The end of an assignment: the variable takes the value as one of its kind, or null if there is none.
-/
def assignValue (span : Span) (name : String) (kind : Kind) (v : Value) : Run Value :=
  match v.coerce kind with
  | .ok stored => do
    writeVariable span name stored
    return stored
  | .error e => do
    writeVariable span name .null
    raise span e

/--
From a state with property `P` a run ends with a result and a state that have property `Q`, or it halts with
property `E`.
-/
def Triple {α : Type} (P : State → Prop) (x : Run α) (Q : α → State → Prop)
    (E : Halt → State → Prop) : Prop :=
  ∀ s, P s → match x s with
    | .ok a s' => Q a s'
    | .error h s' => E h s'

namespace Triple

variable {α β : Type} {P P' : State → Prop} {E E' : Halt → State → Prop}

theorem result {x : Run α} {Q : α → State → Prop} {a : α} {s s' : State} (hx : Triple P x Q E) (hs : P s)
    (h : x s = .ok a s') : Q a s' := by
  have := hx s hs
  rwa [h] at this

theorem pure {Q : α → State → Prop} {a : α} (h : ∀ s, P s → Q a s) :
    Triple P (Pure.pure a) Q E :=
  h

theorem bind {x : Run α} {f : α → Run β} {R : α → State → Prop} {Q : β → State → Prop}
    (hx : Triple P x R E) (hf : ∀ a, Triple (R a) (f a) Q E) : Triple P (x >>= f) Q E := by
  intro s hs
  have hx := hx s hs
  change match EStateM.bind x f s with | .ok a s' => Q a s' | .error h s' => E h s'
  unfold EStateM.bind
  cases h : x s with
  | ok a s' =>
    rw [h] at hx
    exact hf a s' hx
  | error e s' =>
    rw [h] at hx
    exact hx

theorem conseq {x : Run α} {Q Q' : α → State → Prop} (hx : Triple P x Q E)
    (hP : ∀ s, P' s → P s) (hQ : ∀ a s, Q a s → Q' a s) (hE : ∀ h s, E h s → E' h s) :
    Triple P' x Q' E' := by
  intro s hs
  have hx := hx s (hP s hs)
  revert hx
  cases x s with
  | ok a s' => exact hQ a s'
  | error e s' => exact hE e s'

theorem post {x : Run α} {Q Q' : α → State → Prop} (hx : Triple P x Q E)
    (hQ : ∀ a s, Q a s → Q' a s) : Triple P x Q' E :=
  hx.conseq (fun _ h => h) hQ (fun _ _ h => h)

theorem pre {x : Run α} {Q : α → State → Prop} (hx : Triple P x Q E)
    (hP : ∀ s, P' s → P s) : Triple P' x Q E :=
  hx.conseq hP (fun _ _ h => h) (fun _ _ h => h)

theorem recording {x : Run α} {Q : α → State → Prop} {s : State} (hx : Triple P x Q E) (hs : P s) :
    Triple (· = s) x (fun a s' => x s = .ok a s' ∧ Q a s') E := by
  intro t ht
  obtain rfl : t = s := ht
  have hx := hx t hs
  revert hx
  cases x t with
  | ok a s' => exact fun hQ => ⟨rfl, hQ⟩
  | error e s' => exact fun hE => hE

theorem throw {Q : α → State → Prop} {h : Halt} (hE : ∀ s, P s → E h s) :
    Triple P (MonadExcept.throw h) Q E :=
  hE

theorem raise {Q : α → State → Prop} {span : Span} {e : EvalErrorKind}
    (hE : ∀ s, P s → E (.error ⟨e, span⟩) s) : Triple P (Evaluation.raise span e) Q E :=
  hE

theorem assuming {x : Run α} {Q : α → State → Prop} {p : Prop} (hp : ∀ s, P s → p)
    (hx : p → Triple P x Q E) : Triple P x Q E :=
  fun s hs => hx (hp s hs) s hs

theorem liftAt {x : Except EvalErrorKind α} {span : Span} {Q : α → State → Prop}
    (hok : ∀ a s, x = .ok a → P s → Q a s)
    (herror : ∀ e s, x = .error e → P s → E (.error ⟨e, span⟩) s) :
    Triple P (Evaluation.liftAt span x) Q E := by
  cases x with
  | ok a => exact fun s hs => hok a s rfl hs
  | error e => exact fun s hs => herror e s rfl hs

theorem environment {Q : Environment → State → Prop} (h : ∀ s, P s → Q s.env s) :
    Triple P Evaluation.environment Q E :=
  h

theorem setEnvironment {env : Environment} {Q : Unit → State → Prop}
    (h : ∀ s, P s → Q () { s with env }) : Triple P (Evaluation.setEnvironment env) Q E :=
  h

theorem inScope {x : Run α} {Q : α → State → Prop}
    (hx : Triple (fun s => ∃ t, P t ∧ s = { t with env := t.env.push }) x
      (fun a s => Q a { s with env := s.env.pop })
      (fun e s => E e { s with env := s.env.pop })) :
    Triple P (Evaluation.inScope x) Q E := by
  intro s hs
  have hx := hx { s with env := s.env.push } ⟨s, hs, rfl⟩
  unfold Evaluation.inScope
  revert hx
  cases x { s with env := s.env.push } with
  | ok a s' => exact id
  | error e s' => exact id

theorem literal {span : Span} {x : Run Value} {R Q : Value → State → Prop} (hx : Triple P x R E)
    (hok : ∀ v s, R v s → v.isLiteral = true → Q v s)
    (herror : ∀ f s e, R (.function f) s → E (.error ⟨.notLiteral e, span⟩) s) :
    Triple P (Evaluation.literal span x) Q E := by
  unfold Evaluation.literal
  apply hx.bind
  intro v
  cases v with
  | function f => exact raise fun s hs => herror f s _ hs
  | _ => exact pure fun s hs => hok _ s hs rfl

theorem condition {span : Span} {x : Run Value} {R : Value → State → Prop}
    {Q : Bool → State → Prop} (hx : Triple P (Evaluation.literal span x) R E)
    (hok : ∀ b s, R (.bool b) s → Q b s)
    (herror : ∀ v s, R v s → v.kind ≠ .scalar .bool →
      E (.error ⟨v.mismatch (.scalar .bool), span⟩) s) :
    Triple P (Evaluation.condition span x) Q E := by
  unfold Evaluation.condition
  apply hx.bind
  intro v
  cases v with
  | bool b => exact pure fun s hs => hok b s hs
  | _ => exact raise fun s hs => herror _ s hs (by simp [Value.kind])

theorem checkArray {x : Run Value} {R : Value → State → Prop} {Q : Except EvalErrorKind Value → State → Prop}
    (hx : Triple P x R E) (hok : ∀ v s, R v s → Q (.ok v) s) (herror : ∀ e s, E (.error e) s → Q (.error e.kind) s) :
    Triple P (Evaluation.checkArray x) Q E := by
  intro s hs
  have hx := hx s hs
  unfold Evaluation.checkArray
  revert hx
  cases x s with
  | ok v s' => exact hok v s'
  | error h s' =>
    cases h with
    | outOfFuel => exact id
    | error e =>
      intro hE
      dsimp only
      by_cases hnull : e.kind.leavesNull = true
      · rw [if_pos hnull]
        exact herror e s' hE
      · rw [if_neg hnull]
        exact hE

/-! Control flow -/

theorem andThen {first second : Run Flow} {R : State → Prop} {Q : Flow → State → Prop}
    (hfirst : Triple P first (fun flow s => match flow with
      | .normal => R s
      | signal => Q signal s) E)
    (hsecond : Triple R second Q E) : Triple P (Evaluation.andThen first second) Q E := by
  apply hfirst.bind
  intro flow
  cases flow with
  | normal => exact hsecond
  | _ => exact pure fun _ hs => hs

/--
The rule of a loop: one property holds before every test, one before every body, and one before every update.
-/
theorem loop {cond : Run Bool} {body : Run Flow} {update : Run Unit} {B U : State → Prop}
    {Q : Flow → State → Prop}
    (hcond : Triple P cond (fun b s => if b then B s else Q .normal s) E)
    (hbody : Triple B body (fun flow s => match flow with
      | .breaking _ => Q .normal s
      | .returning value span => Q (.returning value span) s
      | .normal | .continuing _ => U s) E)
    (hupdate : Triple U update (fun _ s => P s) E) (hfuel : ∀ s, P s → E .outOfFuel s) (fuel : Nat) :
    Triple P (Evaluation.loop cond body update fuel) Q E := by
  induction fuel with
  | zero => exact throw hfuel
  | succ fuel ih =>
    apply hcond.bind
    intro b
    cases b with
    | false => exact pure fun s hs => hs
    | true =>
      apply hbody.bind
      intro flow
      cases flow with
      | breaking span => exact pure fun s hs => hs
      | returning value span => exact pure fun s hs => hs
      | normal | continuing span => exact hupdate.bind fun _ => ih

theorem forValues_cons {body : Value → Run Flow} {v : Value} {items : List Value} {R : State → Prop}
    {Q : Flow → State → Prop}
    (hbody : Triple P (body v) (fun flow s => match flow with
      | .breaking _ => Q .normal s
      | .returning value span => Q (.returning value span) s
      | .normal | .continuing _ => R s) E)
    (hrest : Triple R (forValues body items) Q E) : Triple P (forValues body (v :: items)) Q E := by
  apply hbody.bind
  intro flow
  cases flow with
  | breaking span => exact pure fun s hs => hs
  | returning value span => exact pure fun s hs => hs
  | normal | continuing span => exact hrest

theorem firstMatch_cons {subject : Value} {equal : Span → Value → Value → Run Bool} {span : Span}
    {value : Run Value} {rest : List (Span × Run Value)} {R : Value → State → Prop} {S : State → Prop}
    {Q : Option Nat → State → Prop} (hvalue : Triple P value R E)
    (hequal : ∀ v, Triple (R v) (equal span subject v)
      (fun b s => if b then Q (some 0) s else S s) E)
    (hrest : Triple S (firstMatch subject equal rest) (fun i? s => Q (i?.map (· + 1)) s) E) :
    Triple P (firstMatch subject equal ((span, value) :: rest)) Q E := by
  apply hvalue.bind
  intro v
  apply (hequal v).bind
  intro b
  cases b with
  | true => exact pure fun s hs => hs
  | false =>
    apply hrest.bind
    exact fun i? => pure fun s hs => hs

theorem fallThrough_cons {body : Run Flow} {rest : List (Run Flow)} {R : State → Prop}
    {Q : Flow → State → Prop}
    (hbody : Triple P body (fun flow s => match flow with
      | .normal => R s
      | .breaking _ => Q .normal s
      | signal => Q signal s) E)
    (hrest : Triple R (fallThrough rest) Q E) : Triple P (fallThrough (body :: rest)) Q E := by
  apply hbody.bind
  intro flow
  cases flow with
  | normal => exact hrest
  | _ => exact pure fun s hs => hs

end Triple

end Evaluation

end Arbor
