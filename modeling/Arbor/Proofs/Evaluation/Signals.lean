import Arbor.Proofs.Evaluation.Moment

/-!
This module contains the signals of statements. What a part of a statement ends with is consumed by the statement or is
what the statement ends with, and nothing of the statement runs in between. The initializer of a loop is the exception:
its signal is dropped, and the loop begins.
-/

namespace Arbor

/--
How many scopes the body of a branch or a loop has around it.
-/
def Stmt.scopesAround (body : Stmt) : Nat :=
  if body.isBlock then 0 else 1

namespace Evaluation

def State.popped (s : State) : Nat → State
  | 0 => s
  | n + 1 => State.popped { s with env := s.env.pop } n

theorem State.popped_popped (s : State) (m n : Nat) : (s.popped m).popped n = s.popped (m + n) := by
  induction m generalizing s with
  | zero => rw [popped, Nat.zero_add]
  | succ m ih =>
    rw [Nat.succ_add]
    exact ih _

/-! Parts of statements -/

inductive Passes : List (Run Flow) → State → State → Prop where
  | nil (s : State) : Passes [] s s
  | cons {x : Run Flow} {rest : List (Run Flow)} {s s₁ s₂ : State} :
    x s = .ok .normal s₁ → Passes rest s₁ s₂ → Passes (x :: rest) s s₂

/--
The rounds of a loop up to the beginning of one of them, with the fuel that is left.
-/
inductive Rounds (cx : Context) (cond update : Option Expr) (body : Stmt) (fuel : Nat) (s : State) :
    Nat → State → Prop where
  | begin : Rounds cx cond update body fuel s fuel s
  | next {k : Nat} {s₁ s₂ s₃ s₄ : State} {flow : Flow} :
    Rounds cx cond update body fuel s (k + 1) s₁ → roundTest cx cond s₁ = .ok true s₂ →
    asBody body.isBlock (execute cx body) s₂ = .ok flow s₃ → flow.goesOn = true →
    roundUpdate cx update s₃ = .ok () s₄ → Rounds cx cond update body fuel s k s₄

inductive ValueRounds (round : Value → Run Flow) (items : List Value) (s : State) :
    List Value → State → Prop where
  | begin : ValueRounds round items s items s
  | next {v : Value} {rest : List Value} {s₁ s₂ : State} {flow : Flow} :
    ValueRounds round items s (v :: rest) s₁ → round v s₁ = .ok flow s₂ → flow.goesOn = true →
    ValueRounds round items s rest s₂

def leaving (n : Nat) (x : Run Flow) : Run Flow := fun s => x (s.popped n)

def closing (x : Run Flow) : Run Flow := fun s =>
  match x s with
  | .ok flow s => .ok flow { s with env := s.env.pop }
  | .error e s => .error e { s with env := s.env.pop }

def allRounds (cx : Context) (cond update : Option Expr) (body : Stmt) (fuel : Nat) : Run Flow :=
  loop (roundTest cx cond) (asBody body.isBlock (execute cx body)) (roundUpdate cx update) fuel

def afterBody (cx : Context) (cond update : Option Expr) (body : Stmt) (fuel : Nat) : Run Flow := do
  roundUpdate cx update
  allRounds cx cond update body fuel

def elementRound (cx : Context) (span : Span) (name : String) (elem : Kind) (body : Stmt) (v : Value) :
    Run Flow :=
  inScope do
    declare span name elem v
    asBody body.isBlock (execute cx body)

inductive Prepares (cx : Context) (s : State) : Option Stmt → State → Prop where
  | none : Prepares cx s none { s with env := s.env.push }
  | some {init : Stmt} {s' : State} {flow : Flow} :
    execute cx init { s with env := s.env.push } = .ok flow s' → Prepares cx s (some init) s'

/--
What a part of a statement is to it. A loop goes on with a rest after a body that does not end it, and after its
initializer.
-/
inductive Site where
  | inner
  | caseBody
  | loopBody (rest : Run Flow)
  | initializer (rest : Run Flow)

/--
The execution of a statement in a state comes to one of its parts, in another state with a number of scopes more.
-/
inductive Comes (cx : Context) : Stmt → State → Stmt → Site → Nat → State → Prop where
  | block {span : Span} {before after : List Stmt} {part : Stmt} {s s' : State} :
    Passes (before.map (execute cx)) { s with env := s.env.push } s' →
    Comes cx (.block span (before ++ part :: after)) s part .inner 1 s'
  | branch {span : Span} {c : Expr} {t part : Stmt} {f : Option Stmt} {b : Bool} {s s' : State} :
    condition c.span (evaluate cx c) s = .ok b s' → (if b then some t else f) = some part →
    Comes cx (.conditional span c t f) s part .inner part.scopesAround (s'.enterBody part)
  | whileLoop {span : Span} {c : Expr} {body : Stmt} {k : Nat} {s s₁ s₂ : State} :
    Rounds cx (some c) none body cx.fuel s (k + 1) s₁ → roundTest cx (some c) s₁ = .ok true s₂ →
    Comes cx (.whileLoop span c body) s body
      (.loopBody (leaving body.scopesAround (afterBody cx (some c) none body k))) body.scopesAround
      (s₂.enterBody body)
  | prepared {span : Span} {init : Stmt} {c update : Option Expr} {body : Stmt} {s : State} :
    Comes cx (.forLoop span (some init) c update body) s init
      (.initializer (closing (allRounds cx c update body cx.fuel))) 1 { s with env := s.env.push }
  | forLoop {span : Span} {init : Option Stmt} {c update : Option Expr} {body : Stmt} {k : Nat}
      {s s₁ s₂ s₃ : State} :
    Prepares cx s init s₁ → Rounds cx c update body cx.fuel s₁ (k + 1) s₂ →
    roundTest cx c s₂ = .ok true s₃ →
    Comes cx (.forLoop span init c update body) s body
      (.loopBody (leaving body.scopesAround (closing (afterBody cx c update body k))))
      (body.scopesAround + 1) (s₃.enterBody body)
  | forEach {span : Span} {declared : TypeName} {name iterable : String} {body : Stmt} {elem : Kind}
      {v : Value} {items rest : List Value} {s s₁ s₂ s₃ : State} :
    readArray span iterable s = .ok (elem, items) s₁ → checkElement elem declared = .ok () →
    ValueRounds (elementRound cx span name elem body) items s₁ (v :: rest) s₂ →
    declare span name elem v { s₂ with env := s₂.env.push } = .ok () s₃ →
    Comes cx (.forEach span declared name iterable body) s body
      (.loopBody (leaving (body.scopesAround + 1) (forValues (elementRound cx span name elem body) rest)))
      (body.scopesAround + 1) (s₃.enterBody body)
  | switch {span : Span} {subject : Expr} {cases : List SwitchCase} {default : Option (List Stmt)}
      {v : Value} {position? : Option Nat} {before after : List (List Stmt)} {first last : List Stmt}
      {part : Stmt} {s s₁ s₂ s₃ s₄ : State} :
    literal subject.span (evaluate cx subject) s = .ok v s₁ →
    firstMatch v equalForSwitch (caseValues cx cases) s₁ = .ok position? s₂ →
    bodiesFrom position? (cases.map SwitchCase.body) default = before ++ (first ++ part :: last) :: after →
    Passes (before.map fun body => inScope (executeAll cx body)) s₂ s₃ →
    Passes (first.map (execute cx)) { s₃ with env := s₃.env.push } s₄ →
    Comes cx (.switch span subject cases default) s part .caseBody 1 s₄

/--
What a statement does after a part that ended with a signal: it consumes the signal or hands it on, or it goes on.
-/
def Site.result : Site → Flow → Nat → State → EStateM.Result Halt State Flow
  | .loopBody _, .breaking _, n, s | .caseBody, .breaking _, n, s => .ok .normal (s.popped n)
  | .loopBody rest, .continuing _, _, s | .initializer rest, _, _, s => rest s
  | _, flow, n, s => .ok flow (s.popped n)

/-! Signals in sequences and in loops -/

section Pieces

variable {α β : Type} {cx : Context} {s s' s₁ s₂ : State} {flow : Flow}

theorem bind_of_ok {x : Run α} {f : α → Run β} {a : α} (h : x s = .ok a s') : (x >>= f) s = f a s' := by
  change EStateM.bind x f s = _
  rw [EStateM.bind, h]

theorem liftAt_of_ok {x : Except EvalErrorKind α} {span : Span} {a : α} (h : x = .ok a) :
    liftAt span x s = .ok a s := by
  rw [h]
  rfl

theorem inScope_of_ok {x : Run α} {a : α} (h : x { s with env := s.env.push } = .ok a s') :
    inScope x s = .ok a { s' with env := s'.env.pop } := by
  rw [inScope, h]

theorem inCall_congr {scope : Nat} {x y : Run α}
    (h : x { s with env := s.env.enter scope, callDepth := s.callDepth + 1 } =
      y { s with env := s.env.enter scope, callDepth := s.callDepth + 1 }) :
    inCall scope x s = inCall scope y s := by
  unfold inCall
  dsimp only
  rw [h]

theorem asBody_of_ok {body : Stmt} (h : execute cx body (s.enterBody body) = .ok flow s') :
    asBody body.isBlock (execute cx body) s = .ok flow (s'.popped body.scopesAround) := by
  unfold asBody Stmt.scopesAround
  unfold State.enterBody at h
  cases hblock : body.isBlock with
  | true =>
    rw [hblock] at h
    exact h
  | false =>
    rw [hblock] at h
    exact inScope_of_ok h

theorem executeAll_of_passes {before rest : List Stmt} (h : Passes (before.map (execute cx)) s s') :
    executeAll cx (before ++ rest) s = executeAll cx rest s' := by
  induction before generalizing s with
  | nil =>
    cases h
    rfl
  | cons stmt before ih =>
    cases h with
    | cons hstmt hrest =>
      rw [List.cons_append, executeAll, andThen, bind_of_ok hstmt]
      exact ih hrest

theorem executeAll_of_signal {before after : List Stmt} {part : Stmt}
    (h : Passes (before.map (execute cx)) s s₁) (hpart : execute cx part s₁ = .ok flow s₂)
    (hflow : flow ≠ .normal) : executeAll cx (before ++ part :: after) s = .ok flow s₂ := by
  rw [executeAll_of_passes h, executeAll, andThen, bind_of_ok hpart]
  cases flow with
  | normal => exact absurd rfl hflow
  | breaking | continuing | returning => rfl

theorem fallThrough_of_passes {before rest : List (Run Flow)} (h : Passes before s s') :
    fallThrough (before ++ rest) s = fallThrough rest s' := by
  induction h with
  | nil => rfl
  | cons hx _ ih =>
    rw [List.cons_append, fallThrough, bind_of_ok hx]
    exact ih

def Flow.ofRound : Flow → Flow
  | .breaking _ => .normal
  | flow => flow

theorem loop_of_body {cond : Run Bool} {body : Run Flow} {update : Run Unit} {k : Nat}
    (htest : cond s = .ok true s₁) (hbody : body s₁ = .ok flow s₂) :
    loop cond body update (k + 1) s =
      if flow.goesOn then (do update; loop cond body update k) s₂ else .ok flow.ofRound s₂ := by
  rw [loop, bind_of_ok htest, if_pos rfl, bind_of_ok hbody]
  cases flow <;> rfl

theorem Rounds.allRounds_eq {cond update : Option Expr} {body : Stmt} {fuel k : Nat}
    (h : Rounds cx cond update body fuel s k s') :
    allRounds cx cond update body fuel s = allRounds cx cond update body k s' := by
  induction h with
  | begin => rfl
  | next _ htest hbody hgoes hupdate ih =>
    rw [ih, allRounds, loop_of_body htest hbody, if_pos hgoes, bind_of_ok hupdate]
    rfl

theorem Rounds.allRounds_of_body {cond update : Option Expr} {body : Stmt} {fuel k : Nat}
    (h : Rounds cx cond update body fuel s (k + 1) s') (htest : roundTest cx cond s' = .ok true s₁)
    (hbody : execute cx body (s₁.enterBody body) = .ok flow s₂) :
    allRounds cx cond update body fuel s =
      if flow.goesOn then afterBody cx cond update body k (s₂.popped body.scopesAround)
      else .ok flow.ofRound (s₂.popped body.scopesAround) := by
  rw [h.allRounds_eq, allRounds, loop_of_body htest (asBody_of_ok hbody)]
  rfl

theorem forValues_of_round {round : Value → Run Flow} {v : Value} {rest : List Value}
    (h : round v s = .ok flow s') :
    forValues round (v :: rest) s = if flow.goesOn then forValues round rest s' else .ok flow.ofRound s' := by
  rw [forValues, bind_of_ok h]
  cases flow <;> rfl

theorem ValueRounds.forValues_eq {round : Value → Run Flow} {items rest : List Value}
    (h : ValueRounds round items s rest s') : forValues round items s = forValues round rest s' := by
  induction h with
  | begin => rfl
  | next _ hround hgoes ih => rw [ih, forValues_of_round hround, if_pos hgoes]

theorem bodiesFrom_map (f : α → β) (position? : Option Nat) (cases : List α) (default? : Option α) :
    bodiesFrom position? (cases.map f) (default?.map f) = (bodiesFrom position? cases default?).map f := by
  unfold bodiesFrom
  rw [List.map_append]
  congr 1
  · cases position? <;> simp
  · cases default? <;> rfl

theorem switchBodies_eq_map (cx : Context) (position? : Option Nat) (cases : List SwitchCase)
    (default : Option (List Stmt)) :
    bodiesFrom position? (caseBodies cx cases) (default.map fun body => inScope (executeAll cx body)) =
      (bodiesFrom position? (cases.map SwitchCase.body) default).map fun body => inScope (executeAll cx body) := by
  rw [caseBodies_eq, bodiesFrom_map]

theorem execute_forEach_eq (span : Span) (declared : TypeName) (name iterable : String) (body : Stmt) :
    execute cx (.forEach span declared name iterable body) = (do
      let (elem, items) ← readArray span iterable
      liftAt span (checkElement elem declared)
      forValues (elementRound cx span name elem body) items) := by
  rw [execute]
  rfl

theorem inScope_eq_closing (x : Run Flow) (s : State) :
    inScope x s = closing x { s with env := s.env.push } := by
  unfold inScope closing
  cases x { s with env := s.env.push } <;> rfl

theorem closing_congr {x y : Run Flow} (h : x s = y s') : closing x s = closing y s' := by
  rw [closing, closing, h]

theorem closing_of_ok {x : Run Flow} (h : x s = .ok flow s') :
    closing x s = .ok flow { s' with env := s'.env.pop } := by
  rw [closing, h]

theorem execute_forLoop_of_prepares {span : Span} {init : Option Stmt} {c update : Option Expr} {body : Stmt}
    (h : Prepares cx s init s') :
    execute cx (.forLoop span init c update body) s = closing (allRounds cx c update body cx.fuel) s' := by
  rw [execute_forLoop, inScope_eq_closing]
  cases h with
  | none => rfl
  | some hinit =>
    exact closing_congr (bind_of_ok hinit)

end Pieces

/-! Signals of statements -/

section Signals

variable {cx : Context} {stmt part : Stmt} {site : Site} {n : Nat} {s s₁ s₂ : State} {flow : Flow}

theorem Comes.execute_eq (h : Comes cx stmt s part site n s₁) (hpart : execute cx part s₁ = .ok flow s₂)
    (hflow : flow ≠ .normal) : execute cx stmt s = site.result flow n s₂ := by
  cases h with
  | block hbefore =>
    rw [execute, inScope_of_ok (executeAll_of_signal hbefore hpart hflow)]
    cases flow <;> rfl
  | @branch span c t _ f b _ s' hc hbranch =>
    have hbody : execute cx (.conditional span c t f) s = asBody part.isBlock (execute cx part) s' := by
      rw [execute.eq_def]
      dsimp only
      rw [bind_of_ok hc]
      cases b with
      | true =>
        cases hbranch
        rfl
      | false =>
        change f = some part at hbranch
        subst hbranch
        rfl
    rw [hbody, asBody_of_ok hpart]
    cases flow <;> rfl
  | whileLoop hrounds htest =>
    have hloop := hrounds.allRounds_of_body htest hpart
    unfold allRounds at hloop
    rw [execute_whileLoop, hloop]
    cases flow with
    | normal => exact absurd rfl hflow
    | breaking | continuing | returning => rfl
  | prepared => rw [execute_forLoop_of_prepares (.some hpart), Site.result]
  | forLoop hprepares hrounds htest =>
    have hrounds := hrounds.allRounds_of_body htest hpart
    rw [execute_forLoop_of_prepares hprepares]
    cases flow with
    | normal => exact absurd rfl hflow
    | continuing => exact closing_congr hrounds
    | breaking | returning =>
      refine (closing_of_ok hrounds).trans ?_
      exact congrArg _ (s₂.popped_popped part.scopesAround 1)
  | @forEach span _ name _ _ elem v _ _ _ _ s' _ hread hcheck hrounds hdeclare =>
    have hround : elementRound cx span name elem part v s' = .ok flow (s₂.popped (part.scopesAround + 1)) := by
      rw [elementRound, inScope_of_ok ((bind_of_ok hdeclare).trans (asBody_of_ok hpart))]
      exact congrArg _ (s₂.popped_popped part.scopesAround 1)
    rw [execute_forEach_eq, bind_of_ok hread]
    dsimp only
    rw [bind_of_ok (liftAt_of_ok hcheck), hrounds.forValues_eq, forValues_of_round hround]
    cases flow with
    | normal => exact absurd rfl hflow
    | breaking | continuing | returning => rfl
  | @switch _ _ _ _ _ _ _ _ _ last _ _ _ _ _ _ hsubject hmatch hbodies hbefore hfirst =>
    have hbody := inScope_of_ok (@executeAll_of_signal _ _ _ _ _ _ last _ hfirst hpart hflow)
    rw [execute_switch, bind_of_ok hsubject, bind_of_ok hmatch, switchBodies_eq_map, hbodies, List.map_append,
      fallThrough_of_passes hbefore, List.map_cons, fallThrough, bind_of_ok hbody]
    cases flow with
    | normal => exact absurd rfl hflow
    | breaking | continuing | returning => rfl

/--
The execution of a list of statements in a state comes to one of them or, by no initializer, to a statement inside of
them, in another state with a number of scopes more.
-/
inductive Within (cx : Context) (body : List Stmt) (s : State) : Stmt → Nat → State → Prop where
  | direct {before after : List Stmt} {part : Stmt} {s' : State} :
    body = before ++ part :: after → Passes (before.map (execute cx)) s s' → Within cx body s part 0 s'
  | inside {stmt part : Stmt} {site : Site} {m n : Nat} {s₁ s₂ : State} :
    Within cx body s stmt m s₁ → Comes cx stmt s₁ part site n s₂ → (∀ rest, site ≠ .initializer rest) →
    Within cx body s part (n + m) s₂

theorem Comes.execute_of_returning {v : Option Value} {place : Span} (h : Comes cx stmt s part site n s₁)
    (hsite : ∀ rest, site ≠ .initializer rest) (hpart : execute cx part s₁ = .ok (.returning v place) s₂) :
    execute cx stmt s = .ok (.returning v place) (s₂.popped n) := by
  rw [h.execute_eq hpart nofun]
  cases site with
  | initializer rest => exact absurd rfl (hsite rest)
  | inner | caseBody | loopBody => rfl

theorem Within.executeAll_of_returning {body : List Stmt} {v : Option Value} {place : Span}
    (h : Within cx body s part n s₁) (hpart : execute cx part s₁ = .ok (.returning v place) s₂) :
    executeAll cx body s = .ok (.returning v place) (s₂.popped n) := by
  induction h generalizing s₂ with
  | direct hbody hbefore =>
    subst hbody
    exact executeAll_of_signal hbefore hpart nofun
  | inside _ hcomes hsite ih => rw [ih (hcomes.execute_of_returning hsite hpart), State.popped_popped]

theorem Within.invoke_of_returning {config : EvaluatorConfig} {fuel : Nat} {span : Span} {f : Closure}
    {args : List Value} {bound : List (String × Kind × Value)} {s₀ : State} {v : Option Value} {place : Span}
    (hopen : s.callDepth < config.maxCallDepth) (hbound : bindArguments f.params args = .ok bound)
    (hdeclare : declareAll span bound { s with env := s.env.enter f.scope, callDepth := s.callDepth + 1 } = .ok () s₀)
    (h : Within (.of config fuel) f.body s₀ part n s₁)
    (hpart : execute (.of config fuel) part s₁ = .ok (.returning v place) s₂) :
    invoke config (fuel + 1) span f args s =
      inCall f.scope (fun _ => callResult span f (.returning v place) (s₂.popped n)) s := by
  have hget : (get : Run State) s = .ok s s := rfl
  have hbody : executeAll ⟨config.maxArrayLength, fuel, invoke config fuel⟩ f.body s₀ =
      .ok (.returning v place) (s₂.popped n) := h.executeAll_of_returning hpart
  rw [invoke, bind_of_ok hget]
  dsimp only
  rw [if_neg (Nat.not_le.mpr hopen), bind_of_ok (liftAt_of_ok hbound)]
  apply inCall_congr
  rw [bind_of_ok hdeclare, bind_of_ok hbody]

/--
A signal that a part of a statement ends with is consumed by the statement, as the `break` of a loop or a switch and the
`continue` of a loop, or it is what the statement ends with, and nothing but leaving scopes lies in between. So a
`return` at any depth of a function ends the call. Only the initializer of a loop loses its signal: whatever it ends
with, the loop begins.
-/
theorem signals_of_parts {cx : Context} {stmt : Stmt} {s : State} :
    (∀ {part : Stmt} {site : Site} {n : Nat} {s₁ s₂ : State} {flow : Flow},
      Comes cx stmt s part site n s₁ → execute cx part s₁ = .ok flow s₂ →
        (∀ v place, flow = .returning v place → (∀ rest, site ≠ .initializer rest) →
          execute cx stmt s = .ok flow (s₂.popped n)) ∧
        (∀ place, flow = .breaking place →
          (site = .inner → execute cx stmt s = .ok flow (s₂.popped n)) ∧
          (site = .caseBody ∨ (∃ rest, site = .loopBody rest) → execute cx stmt s = .ok .normal (s₂.popped n))) ∧
        (∀ place, flow = .continuing place →
          (site = .inner ∨ site = .caseBody → execute cx stmt s = .ok flow (s₂.popped n)) ∧
          ∀ rest, site = .loopBody rest → execute cx stmt s = rest s₂) ∧
        (∀ rest, site = .initializer rest → flow ≠ .normal → execute cx stmt s = rest s₂)) ∧
    ∀ {config : EvaluatorConfig} {fuel : Nat} {span : Span} {f : Closure} {args : List Value}
      {bound : List (String × Kind × Value)} {part : Stmt} {n : Nat} {s₀ s₁ s₂ : State} {v : Option Value}
      {place : Span},
      s.callDepth < config.maxCallDepth → bindArguments f.params args = .ok bound →
      declareAll span bound { s with env := s.env.enter f.scope, callDepth := s.callDepth + 1 } = .ok () s₀ →
      Within (.of config fuel) f.body s₀ part n s₁ →
      execute (.of config fuel) part s₁ = .ok (.returning v place) s₂ →
      invoke config (fuel + 1) span f args s =
        inCall f.scope (fun _ => callResult span f (.returning v place) (s₂.popped n)) s := by
  refine ⟨fun h hpart => ⟨?_, ?_, ?_, ?_⟩, Within.invoke_of_returning⟩
  · rintro v place rfl hsite
    exact h.execute_of_returning hsite hpart
  · rintro place rfl
    rw [h.execute_eq hpart nofun]
    refine ⟨?_, ?_⟩
    · rintro rfl
      rfl
    · rintro (rfl | ⟨rest, rfl⟩) <;> rfl
  · rintro place rfl
    rw [h.execute_eq hpart nofun]
    refine ⟨?_, ?_⟩
    · rintro (rfl | rfl) <;> rfl
    · rintro rest rfl
      rfl
  · rintro rest rfl hflow
    rw [h.execute_eq hpart hflow]
    rfl

def returningSwitch : Stmt :=
  .switch .unplaced (.literal .unplaced (.int 2)) [
    .mk .unplaced (.literal .unplaced (.int 1)) [.breakStmt .unplaced],
    .mk .unplaced (.literal .unplaced (.int 2)) [],
    .mk .unplaced (.literal .unplaced (.int 3)) [.returnStmt .unplaced (some (.literal .unplaced (.int 7)))]] none

def returningFunction : Closure where
  returns := .int
  name := "f"
  params := []
  body := [
    .whileLoop .unplaced (.literal .unplaced (.bool true)) (.block .unplaced [returningSwitch]),
    .print .unplaced []]
  scope := 0

theorem signals_of_parts_returningFunction :
    let cx : Context := .of .default 3
    let s : State := (Session.start .default).state
    ∃ part s₁ s₂ s₃, Comes cx returningSwitch s₁ part .caseBody 1 s₂ ∧
      Within cx returningFunction.body { s with env := s.env.enter 0, callDepth := 1 } part 2 s₂ ∧
      execute cx part s₂ = .ok (.returning (some (.int 7)) .unplaced) s₃ ∧
      execute cx returningSwitch s₁ = .ok (.returning (some (.int 7)) .unplaced) (s₃.popped 1) ∧
      invoke .default 4 .unplaced returningFunction [] s = inCall 0
        (fun _ => callResult .unplaced returningFunction (.returning (some (.int 7)) .unplaced) (s₃.popped 2)) s := by
  intro cx s
  have hloop : Within cx returningFunction.body { s with env := s.env.enter 0, callDepth := 1 } _ 0 _ :=
    @Within.direct _ _ _ [] _ _ _ rfl (.nil _)
  have hblock := hloop.inside (.whileLoop .begin rfl) nofun
  have hswitch := hblock.inside (@Comes.block _ _ [] _ _ _ _ (.nil _)) nofun
  -- the case before the one that returns runs to its end
  have hcase (s : State) : Comes cx returningSwitch s (.returnStmt .unplaced (some (.literal .unplaced (.int 7))))
      .caseBody 1 { s with env := s.env.push.pop.push } :=
    @Comes.switch _ _ _ _ _ _ _ [[]] [] [] [] _ _ _ _ _ _ rfl rfl rfl (.cons rfl (.nil _)) (.nil _)
  have hpart := hswitch.inside (hcase _) nofun
  refine ⟨_, _, _, _, hcase _, hpart, rfl, ?_, ?_⟩
  · exact (signals_of_parts.1 (hcase _) rfl).1 _ _ rfl nofun
  · exact (@signals_of_parts cx returningSwitch s).2 (by decide) rfl rfl hpart rfl

def returningInitializer : Stmt :=
  .forLoop .unplaced (some (.returnStmt .unplaced (some (.literal .unplaced (.int 5)))))
    (some (.literal .unplaced (.bool false))) none (.block .unplaced [])

/--
The initializer of the loop ends with a `return`, and the loop comes to its end.
-/
theorem returningInitializer_drops :
    let s : State := (Session.start .default).state
    Starts .default (.stmt returningInitializer) s ∧
    ∃ init s₁, returningInitializer =
        .forLoop .unplaced (some init) (some (.literal .unplaced (.bool false))) none (.block .unplaced []) ∧
      execute (.of .default 1) init { s with env := s.env.push } = .ok (.returning (some (.int 5)) .unplaced) s₁ ∧
      ∃ s₂, execute (.of .default 1) returningInitializer s = .ok .normal s₂ :=
  ⟨.statement (.program ⟨[returningInitializer]⟩ .start), _, _, rfl, rfl, _, rfl⟩

end Signals

end Evaluation

end Arbor
