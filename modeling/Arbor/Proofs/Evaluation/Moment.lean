import Arbor.Evaluation.Session

/-!
This module contains the moments of an evaluation: the states in which the evaluator comes to a part of a tree
while it runs programs one after the other, and the states in which it is done with one.
-/

namespace Arbor

def SwitchCase.body : SwitchCase → List Stmt
  | .mk _ _ body => body

namespace Evaluation

def roundTest (cx : Context) : Option Expr → Run Bool
  | none => return true
  | some c => condition c.span (evaluate cx c)

def roundUpdate (cx : Context) : Option Expr → Run Unit
  | none => return ()
  | some e => do let _ ← evaluate cx e

theorem execute_whileLoop (cx : Context) (span : Span) (c : Expr) (body : Stmt) :
    execute cx (.whileLoop span c body) =
      loop (roundTest cx (some c)) (asBody body.isBlock (execute cx body)) (roundUpdate cx none)
        cx.fuel := by
  rw [execute]
  rfl

theorem execute_forLoop (cx : Context) (span : Span) (init : Option Stmt)
    (c update : Option Expr) (body : Stmt) :
    execute cx (.forLoop span init c update body) = inScope (do
      if let some init := init then
        let _ ← execute cx init
      loop (roundTest cx c) (asBody body.isBlock (execute cx body)) (roundUpdate cx update)
        cx.fuel) := by
  rw [execute.eq_def]
  cases init <;> cases c <;> cases update <;> rfl

theorem caseBodies_eq (cx : Context) (cases : List SwitchCase) :
    caseBodies cx cases = (cases.map SwitchCase.body).map fun body => inScope (executeAll cx body) := by
  induction cases with
  | nil => rfl
  | cons first rest ih =>
    obtain ⟨span, value, body⟩ := first
    rw [caseBodies, ih]
    rfl

theorem execute_switch (cx : Context) (span : Span) (subject : Expr) (cases : List SwitchCase)
    (default : Option (List Stmt)) :
    execute cx (.switch span subject cases default) = (do
      let v ← literal subject.span (evaluate cx subject)
      let position? ← firstMatch v equalForSwitch (caseValues cx cases)
      fallThrough (bodiesFrom position? (caseBodies cx cases)
        (default.map fun body => inScope (executeAll cx body)))) := by
  rw [execute.eq_def]
  cases default <;> rfl

/--
What the evaluator works on. Besides expressions and statements these are what is left of a list: the elements
of an array declaration, the rounds of a loop, the values of a loop over an array, the cases of a switch that
are not compared yet, the bodies of a switch that did not run yet, and the statements of a program.
-/
inductive Task where
  | expr (e : Expr)
  | elements (s : Scalar) (dims : Nat) (items : List Expr)
  | stmt (s : Stmt)
  | stmts (body : List Stmt)
  | rounds (cond : Option Expr) (update : Option Expr) (body : Stmt)
  | values (span : Span) (name : String) (elem : Kind) (body : Stmt) (items : List Value)
  | cases (subject : Value) (cases : List SwitchCase)
  | bodies (bodies : List (List Stmt))
  | program (statements : List Stmt)

/--
The state in which a branch or the body of a loop is run: in a scope of its own also if it is no block.
-/
def State.enterBody (s : State) (body : Stmt) : State :=
  if body.isBlock then s else { s with env := s.env.push }

def Flow.goesOn : Flow → Bool
  | .normal | .continuing _ => true
  | .breaking _ | .returning .. => false

inductive Session.Reached (config : EvaluatorConfig) : Session → Prop where
  | start : Session.Reached config (Session.start config)
  | run {session : Session} {fuel : Nat} {p : Program} :
    Session.Reached config session → (session.run fuel p).finished = true →
      Session.Reached config (session.run fuel p).session

/--
The evaluator comes to a task in a state. Every rule but the first goes from a task to a part of it.
-/
inductive Starts (config : EvaluatorConfig) : Task → State → Prop where
  | program {session : Session} (p : Program) :
    session.Reached config → Starts config (.program p.statements) session.state
  | statement {stmt : Stmt} {rest : List Stmt} {s : State} :
    Starts config (.program (stmt :: rest)) s → Starts config (.stmt stmt) s
  | nextStatement {stmt : Stmt} {rest : List Stmt} {s s' : State} {fuel : Nat} {flow : Flow} :
    Starts config (.program (stmt :: rest)) s →
    execute (.of config fuel) stmt s = .ok flow s' →
    (config.abortOnError = true → flow = .normal) → Starts config (.program rest) s'
  | afterError {stmt : Stmt} {rest : List Stmt} {s s' : State} {fuel : Nat} {e : EvalError} :
    Starts config (.program (stmt :: rest)) s →
    execute (.of config fuel) stmt s = .error (.error e) s' →
    config.abortOnError = false → Starts config (.program rest) s'
  /- Expressions -/
  | left {span : Span} {op : BinaryOp} {l r : Expr} {s : State} :
    Starts config (.expr (.binary span op l r)) s → Starts config (.expr l) s
  | right {span : Span} {op : BinaryOp} {l r : Expr} {s s' : State} {fuel : Nat} {v : Value} :
    Starts config (.expr (.binary span op l r)) s → op.cls ≠ .logical →
    literal l.span (evaluate (.of config fuel) l) s = .ok v s' → Starts config (.expr r) s'
  | undecided {span : Span} {op : BinaryOp} {l r : Expr} {s s' : State} {fuel : Nat} {b : Bool} :
    Starts config (.expr (.binary span op l r)) s → op.cls = .logical →
    condition l.span (evaluate (.of config fuel) l) s = .ok b s' → (b = true ↔ op = .and) →
    Starts config (.expr r) s'
  | operand {span : Span} {op : UnaryOp} {e : Expr} {s : State} :
    Starts config (.expr (.unary span op e)) s → Starts config (.expr e) s
  | inner {span : Span} {e : Expr} {s : State} :
    Starts config (.expr (.grouping span e)) s → Starts config (.expr e) s
  | assigned {span : Span} {name : String} {op : AssignOp} {e : Expr} {s : State} :
    Starts config (.expr (.assign span name op e)) s → Starts config (.expr e) s
  | choice {span : Span} {c t f : Expr} {s : State} :
    Starts config (.expr (.ternary span c t f)) s → Starts config (.expr c) s
  | chosen {span : Span} {c t f : Expr} {s s' : State} {fuel : Nat} {b : Bool} :
    Starts config (.expr (.ternary span c t f)) s →
    condition c.span (evaluate (.of config fuel) c) s = .ok b s' →
    Starts config (.expr (if b then t else f)) s'
  | item {span : Span} {before after : List Expr} {e : Expr} {s s' : State} {fuel : Nat}
      {vs : List Value} :
    Starts config (.expr (.arrayLiteral span (before ++ e :: after))) s →
    evaluateAll (.of config fuel) literal before s = .ok vs s' → Starts config (.expr e) s'
  | position {span : Span} {array : String} {i : Expr} {s : State} :
    Starts config (.expr (.index span array i)) s → Starts config (.expr i) s
  | target {span : Span} {array : String} {i e : Expr} {op : AssignOp} {s : State} :
    Starts config (.expr (.indexAssign span array i op e)) s → Starts config (.expr i) s
  | stored {span : Span} {array : String} {i e : Expr} {op : AssignOp} {s s' : State} {fuel : Nat}
      {v : Value} {n : Int} :
    Starts config (.expr (.indexAssign span array i op e)) s →
    literal i.span (evaluate (.of config fuel) i) s = .ok v s' → indexOfValue v = .ok n →
    Starts config (.expr e) s'
  | needle {span : Span} {array : String} {e : Expr} {s : State} :
    Starts config (.expr (.indexOf span array e)) s → Starts config (.expr e) s
  | callee {span : Span} {callee : Expr} {args : List Expr} {s : State} :
    Starts config (.expr (.call span callee args)) s → Starts config (.expr callee) s
  | argument {span : Span} {callee e : Expr} {before after : List Expr} {s s₁ s₂ : State}
      {fuel₁ fuel₂ : Nat} {f : Callable} {vs : List Value} :
    Starts config (.expr (.call span callee (before ++ e :: after))) s →
    evaluate (.of config fuel₁) callee s = .ok (.function f) s₁ →
    f.arity = (before ++ e :: after).length →
    evaluateAll (.of config fuel₂) literal before s₁ = .ok vs s₂ → Starts config (.expr e) s₂
  | called {span : Span} {callee : Expr} {args : List Expr} {s s₁ s₂ s₃ : State}
      {fuel₁ fuel₂ : Nat} {f : Closure} {vs : List Value} {bound : List (String × Kind × Value)} :
    Starts config (.expr (.call span callee args)) s →
    evaluate (.of config fuel₁) callee s = .ok (.function (.closure f)) s₁ →
    f.params.length = args.length →
    evaluateAll (.of config fuel₂) literal args s₁ = .ok vs s₂ →
    s₂.callDepth < config.maxCallDepth → bindArguments f.params vs = .ok bound →
    declareAll span bound
      { s₂ with env := s₂.env.enter f.scope, callDepth := s₂.callDepth + 1 } = .ok () s₃ →
    Starts config (.stmts f.body) s₃
  /- Declarations -/
  | initial {span : Span} {ty : TypeName} {name : String} {e : Expr} {s : State} :
    Starts config (.stmt (.varDecl span ty name (some e))) s → Starts config (.expr e) s
  | list {span : Span} {elem : TypeName} {dims : UInt32} {name : String} {items : List Expr}
      {sc : Scalar} {s : State} :
    Starts config (.stmt (.arrayDecl span elem dims name (.values items))) s →
    elem.scalar? = some sc → Starts config (.elements sc (max dims.toNat 1) items) s
  | sublist {sc : Scalar} {dims : Nat} {span : Span} {before inner after : List Expr}
      {s s' : State} {fuel : Nat} {vs : List Value} :
    Starts config (.elements sc dims (before ++ .arrayLiteral span inner :: after)) s →
    elements (.of config fuel) sc dims before s = .ok vs s' → 1 < dims →
    Starts config (.elements sc (dims - 1) inner) s'
  | element {sc : Scalar} {dims : Nat} {e : Expr} {before after : List Expr} {s s' : State}
      {fuel : Nat} {vs : List Value} :
    Starts config (.elements sc dims (before ++ e :: after)) s →
    elements (.of config fuel) sc dims before s = .ok vs s' →
    (∀ span inner, e = .arrayLiteral span inner → dims ≤ 1) → Starts config (.expr e) s'
  | size {span : Span} {elem : TypeName} {dims : UInt32} {name : String} {length : Expr}
      {sc : Scalar} {s : State} :
    Starts config (.stmt (.arrayDecl span elem dims name (.sized length))) s →
    elem.scalar? = some sc → Starts config (.expr length) s
  /- Statements -/
  | expr {span : Span} {e : Expr} {s : State} :
    Starts config (.stmt (.expr span e)) s → Starts config (.expr e) s
  | printed {span : Span} {before after : List Expr} {e : Expr} {s s' : State} {fuel : Nat}
      {vs : List Value} :
    Starts config (.stmt (.print span (before ++ e :: after))) s →
    evaluateAll (.of config fuel) (fun _ x => x) before s = .ok vs s' → Starts config (.expr e) s'
  | block {span : Span} {body : List Stmt} {s : State} :
    Starts config (.stmt (.block span body)) s →
    Starts config (.stmts body) { s with env := s.env.push }
  | first {stmt : Stmt} {rest : List Stmt} {s : State} :
    Starts config (.stmts (stmt :: rest)) s → Starts config (.stmt stmt) s
  | next {stmt : Stmt} {rest : List Stmt} {s s' : State} {fuel : Nat} :
    Starts config (.stmts (stmt :: rest)) s →
    execute (.of config fuel) stmt s = .ok .normal s' → Starts config (.stmts rest) s'
  | test {span : Span} {c : Expr} {t : Stmt} {f : Option Stmt} {s : State} :
    Starts config (.stmt (.conditional span c t f)) s → Starts config (.expr c) s
  | branch {span : Span} {c : Expr} {t branch : Stmt} {f : Option Stmt} {s s' : State} {fuel : Nat}
      {b : Bool} :
    Starts config (.stmt (.conditional span c t f)) s →
    condition c.span (evaluate (.of config fuel) c) s = .ok b s' →
    (if b then some t else f) = some branch → Starts config (.stmt branch) (s'.enterBody branch)
  | whileLoop {span : Span} {c : Expr} {body : Stmt} {s : State} :
    Starts config (.stmt (.whileLoop span c body)) s → Starts config (.rounds (some c) none body) s
  | prepared {span : Span} {init : Stmt} {c update : Option Expr} {body : Stmt} {s : State} :
    Starts config (.stmt (.forLoop span (some init) c update body)) s →
    Starts config (.stmt init) { s with env := s.env.push }
  | forLoop {span : Span} {init : Stmt} {c update : Option Expr} {body : Stmt} {s s' : State}
      {fuel : Nat} {flow : Flow} :
    Starts config (.stmt (.forLoop span (some init) c update body)) s →
    execute (.of config fuel) init { s with env := s.env.push } = .ok flow s' →
    Starts config (.rounds c update body) s'
  | unprepared {span : Span} {c update : Option Expr} {body : Stmt} {s : State} :
    Starts config (.stmt (.forLoop span none c update body)) s →
    Starts config (.rounds c update body) { s with env := s.env.push }
  | roundTest {c : Expr} {update : Option Expr} {body : Stmt} {s : State} :
    Starts config (.rounds (some c) update body) s → Starts config (.expr c) s
  | roundBody {c update : Option Expr} {body : Stmt} {s s' : State} {fuel : Nat} :
    Starts config (.rounds c update body) s →
    roundTest (.of config fuel) c s = .ok true s' →
    Starts config (.stmt body) (s'.enterBody body)
  | roundUpdate {c : Option Expr} {update : Expr} {body : Stmt} {s s₁ s₂ : State}
      {fuel₁ fuel₂ : Nat} {flow : Flow} :
    Starts config (.rounds c (some update) body) s →
    roundTest (.of config fuel₁) c s = .ok true s₁ →
    asBody body.isBlock (execute (.of config fuel₂) body) s₁ = .ok flow s₂ → flow.goesOn = true →
    Starts config (.expr update) s₂
  | nextRound {c update : Option Expr} {body : Stmt} {s s₁ s₂ s₃ : State}
      {fuel₁ fuel₂ fuel₃ : Nat} {flow : Flow} :
    Starts config (.rounds c update body) s →
    roundTest (.of config fuel₁) c s = .ok true s₁ →
    asBody body.isBlock (execute (.of config fuel₂) body) s₁ = .ok flow s₂ → flow.goesOn = true →
    roundUpdate (.of config fuel₃) update s₂ = .ok () s₃ → Starts config (.rounds c update body) s₃
  | forEach {span : Span} {declared : TypeName} {name iterable : String} {body : Stmt}
      {s s' : State} {elem : Kind} {items : List Value} :
    Starts config (.stmt (.forEach span declared name iterable body)) s →
    readArray span iterable s = .ok (elem, items) s' → checkElement elem declared = .ok () →
    Starts config (.values span name elem body items) s'
  | value {span : Span} {name : String} {elem : Kind} {body : Stmt} {v : Value}
      {items : List Value} {s s' : State} :
    Starts config (.values span name elem body (v :: items)) s →
    declare span name elem v { s with env := s.env.push } = .ok () s' →
    Starts config (.stmt body) (s'.enterBody body)
  | nextValue {span : Span} {name : String} {elem : Kind} {body : Stmt} {v : Value}
      {items : List Value} {s s' : State} {fuel : Nat} {flow : Flow} :
    Starts config (.values span name elem body (v :: items)) s →
    inScope (do
      declare span name elem v
      asBody body.isBlock (execute (.of config fuel) body)) s = .ok flow s' → flow.goesOn = true →
    Starts config (.values span name elem body items) s'
  | subject {span : Span} {subject : Expr} {cases : List SwitchCase} {default : Option (List Stmt)}
      {s : State} :
    Starts config (.stmt (.switch span subject cases default)) s → Starts config (.expr subject) s
  | switch {span : Span} {subject : Expr} {cases : List SwitchCase} {default : Option (List Stmt)}
      {s s' : State} {fuel : Nat} {v : Value} :
    Starts config (.stmt (.switch span subject cases default)) s →
    literal subject.span (evaluate (.of config fuel) subject) s = .ok v s' →
    Starts config (.cases v cases) s'
  | caseValue {subject : Value} {span : Span} {value : Expr} {body : List Stmt}
      {rest : List SwitchCase} {s : State} :
    Starts config (.cases subject (.mk span value body :: rest)) s → Starts config (.expr value) s
  | nextCase {subject v : Value} {span : Span} {value : Expr} {body : List Stmt}
      {rest : List SwitchCase} {s s' : State} {fuel : Nat} :
    Starts config (.cases subject (.mk span value body :: rest)) s →
    literal value.span (evaluate (.of config fuel) value) s = .ok v s' →
    Value.binary .eq subject v = .ok (.bool false) → Starts config (.cases subject rest) s'
  | matched {span : Span} {subject : Expr} {cases : List SwitchCase} {default : Option (List Stmt)}
      {s s₁ s₂ : State} {fuel₁ fuel₂ : Nat} {v : Value} {position? : Option Nat} :
    Starts config (.stmt (.switch span subject cases default)) s →
    literal subject.span (evaluate (.of config fuel₁) subject) s = .ok v s₁ →
    firstMatch v equalForSwitch (caseValues (.of config fuel₂) cases) s₁ = .ok position? s₂ →
    Starts config (.bodies (bodiesFrom position? (cases.map SwitchCase.body) default)) s₂
  | body {body : List Stmt} {rest : List (List Stmt)} {s : State} :
    Starts config (.bodies (body :: rest)) s →
    Starts config (.stmts body) { s with env := s.env.push }
  | nextBody {body : List Stmt} {rest : List (List Stmt)} {s s' : State} {fuel : Nat} :
    Starts config (.bodies (body :: rest)) s →
    inScope (executeAll (.of config fuel) body) s = .ok .normal s' → Starts config (.bodies rest) s'
  | returned {span : Span} {e : Expr} {s : State} :
    Starts config (.stmt (.returnStmt span (some e))) s → Starts config (.expr e) s

def endState {α : Type} : EStateM.Result Halt State α → State
  | .ok _ s => s
  | .error _ s => s

/--
A state that the evaluator is in when it comes to a task, or when it is done with an expression or a statement.
-/
inductive Moment (config : EvaluatorConfig) : State → Prop where
  | start {task : Task} {s : State} : Starts config task s → Moment config s
  | evaluated {e : Expr} {s : State} (fuel : Nat) :
    Starts config (.expr e) s → Moment config (endState (evaluate (.of config fuel) e s))
  | executed {stmt : Stmt} {s : State} (fuel : Nat) :
    Starts config (.stmt stmt) s → Moment config (endState (execute (.of config fuel) stmt s))

theorem Session.runAll_relates {R : State → State → Prop} {config : EvaluatorConfig} {fuel : Nat}
    (refl : ∀ s, R s s) (trans : ∀ {s s' s''}, R s s' → R s' s'' → R s s'')
    (hstmt : ∀ stmt s, R s (endState (execute (.of config fuel) stmt s))) (stmts : List Stmt)
    (s : State) : R s (runAll config fuel stmts s).2.1 := by
  induction stmts generalizing s with
  | nil => exact refl s
  | cons stmt rest ih =>
    have hstmt := hstmt stmt s
    unfold runAll
    cases hrun : execute (Context.of config fuel) stmt s with
    | ok flow s' =>
      rw [hrun] at hstmt
      dsimp only
      split
      · exact trans hstmt (ih s')
      · split
        · exact hstmt
        · exact trans hstmt (ih s')
    | error h s' =>
      rw [hrun] at hstmt
      cases h with
      | outOfFuel => exact hstmt
      | error e =>
        dsimp only
        split
        · exact hstmt
        · exact trans hstmt (ih s')

end Evaluation

end Arbor
