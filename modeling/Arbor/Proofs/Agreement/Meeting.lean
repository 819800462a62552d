import Arbor.Proofs.Agreement.Execution

/-!
This module contains the meetings of the generator and the evaluator: the frames in which the one and the states in
which the other comes to the same part of a program.
-/

namespace Arbor.Agreement

open Lowering (Lower Frame SlotKind Yields lowerExpr lowerAs lowerCondition lowerStmt applyBinary
  asKind arrayElement loadVariable nameTop openScope popSlot pushValue pushWord printTop matchCases
  loopTest loopBody loopUpdate)
open Evaluation

/--
What the generator and the evaluator come to. Besides expressions and statements these are what is left of a list or
of a loop.
-/
inductive Site where
  | expr (e : Expr)
  | items (elem : Scalar) (items : List Expr)
  | args (args : List Expr)
  | stmt (s : Stmt)
  | stmts (body : List Stmt)
  | rounds (cond update : Option Expr) (body : Stmt)
  | values (span : Span) (name : String) (elem : Scalar) (body : Stmt) (items : List Value)
  | cases (subject : Value) (kind : SlotKind) (cases : List SwitchCase)
  | bodies (bodies : List (List Stmt))

/--
A computation that lowers a part of a program leads from one frame to another, with a result.
-/
def Moves {α : Type} (x : Lower α) (f : Frame) (a : α) (f' : Frame) : Prop :=
  ∃ t t', Yields x t a t' ∧ t.frame = f ∧ t'.frame = f'

def lowerRound (limit : Nat) (body : Stmt) (done next : Assembly.Label) (level : Int) : Lower Unit :=
  loopBody done next level (Lowering.asBody body.isBlock (lowerStmt limit body))

/--
Lowering what a loop over an array pushes before its body: the array, the index, and in an inner scope the element.
The result is the kind of the element.
-/
def lowerElement (span : Span) (name iterable : String) : Lower Scalar := do
  let elem ← arrayElement span iterable
  openScope
  let _ ← loadVariable span iterable
  nameTop span "#base"
  let _ ← pushWord 0 .int
  nameTop span "#idx"
  openScope
  pushValue .t0 (.scalar elem)
  nameTop span name
  return elem

/--
The generator comes to a site with a frame, and the evaluator comes to it in a state, while a program is lowered and
run from the start. Every rule but the first goes from a site to a part of it, of which all that comes before it has
been lowered and has been run. A loop is lowered once and comes to its parts in every round.
-/
inductive Meets (limit : Nat) (config : EvaluatorConfig) (p : Program) : Site → Frame → State → Prop where
  | program : Meets limit config p (.stmts p.statements) .empty (Session.start config).state
  | statement {stmt : Stmt} {rest : List Stmt} {f : Frame} {s : State} :
    Meets limit config p (.stmts (stmt :: rest)) f s → Meets limit config p (.stmt stmt) f s
  | nextStatement {stmt : Stmt} {rest : List Stmt} {f f' : Frame} {s s' : State} {fuel : Nat} :
    Meets limit config p (.stmts (stmt :: rest)) f s → Moves (lowerStmt limit stmt) f () f' →
    execute (.of config fuel) stmt s = .ok .normal s' → Meets limit config p (.stmts rest) f' s'
  /- Expressions -/
  | left {span : Span} {op : BinaryOp} {l r : Expr} {f : Frame} {s : State} :
    Meets limit config p (.expr (.binary span op l r)) f s → Meets limit config p (.expr l) f s
  | right {span : Span} {op : BinaryOp} {l r : Expr} {kind : SlotKind} {f f' : Frame} {s s' : State}
      {fuel : Nat} {v : Value} :
    Meets limit config p (.expr (.binary span op l r)) f s → op.cls ≠ .logical →
    Moves (lowerExpr l) f kind f' → literal l.span (evaluate (.of config fuel) l) s = .ok v s' →
    Meets limit config p (.expr r) f' s'
  | undecided {span : Span} {op : BinaryOp} {l r : Expr} {f f' : Frame} {s s' : State} {fuel : Nat}
      {b : Bool} :
    Meets limit config p (.expr (.binary span op l r)) f s → op.cls = .logical →
    Moves (lowerCondition l) f () f' → condition l.span (evaluate (.of config fuel) l) s = .ok b s' →
    Meets limit config p (.expr r) f' s'
  | operand {span : Span} {op : UnaryOp} {e : Expr} {f : Frame} {s : State} :
    Meets limit config p (.expr (.unary span op e)) f s → Meets limit config p (.expr e) f s
  | inner {span : Span} {e : Expr} {f : Frame} {s : State} :
    Meets limit config p (.expr (.grouping span e)) f s → Meets limit config p (.expr e) f s
  | assigned {span : Span} {name : String} {e : Expr} {f : Frame} {s : State} :
    Meets limit config p (.expr (.assign span name .set e)) f s → Meets limit config p (.expr e) f s
  | combined {span : Span} {name : String} {op : AssignOp} {e : Expr} {kind : SlotKind} {f f' : Frame}
      {s : State} :
    Meets limit config p (.expr (.assign span name op e)) f s → op.combine? ≠ none →
    Moves (loadVariable span name) f kind f' → Meets limit config p (.expr e) f' s
  | choice {span : Span} {c t e : Expr} {f : Frame} {s : State} :
    Meets limit config p (.expr (.ternary span c t e)) f s → Meets limit config p (.expr c) f s
  | whenTrue {span : Span} {c t e : Expr} {f f' : Frame} {s s' : State} {fuel : Nat} :
    Meets limit config p (.expr (.ternary span c t e)) f s → Moves (lowerCondition c) f () f' →
    condition c.span (evaluate (.of config fuel) c) s = .ok true s' → Meets limit config p (.expr t) f' s'
  | whenFalse {span : Span} {c t e : Expr} {f f' : Frame} {s s' : State} {fuel : Nat} :
    Meets limit config p (.expr (.ternary span c t e)) f s →
    Moves (do
      lowerCondition c
      let _ ← lowerExpr t
      let _ ← popSlot t.span) f () f' →
    condition c.span (evaluate (.of config fuel) c) s = .ok false s' →
    Meets limit config p (.expr e) f' s'
  | position {span : Span} {array : String} {i : Expr} {f : Frame} {s : State} :
    Meets limit config p (.expr (.index span array i)) f s → Meets limit config p (.expr i) f s
  | target {span : Span} {array : String} {op : AssignOp} {i e : Expr} {f : Frame} {s : State} :
    Meets limit config p (.expr (.indexAssign span array i op e)) f s → Meets limit config p (.expr i) f s
  | stored {span : Span} {array : String} {i e : Expr} {f f' : Frame} {s s' : State} {fuel : Nat}
      {v : Value} :
    Meets limit config p (.expr (.indexAssign span array i .set e)) f s →
    Moves (lowerAs i .int) f () f' → literal i.span (evaluate (.of config fuel) i) s = .ok v s' →
    Meets limit config p (.expr e) f' s'
  | storedCombined {span : Span} {array : String} {op : AssignOp} {i e : Expr} {f f' : Frame}
      {s s' : State} {fuel : Nat} {v : Value} :
    Meets limit config p (.expr (.indexAssign span array i op e)) f s → op.combine? ≠ none →
    Moves (do
      let elem ← arrayElement span array
      lowerAs i .int
      pushValue .t0 (.scalar elem)) f () f' →
    literal i.span (evaluate (.of config fuel) i) s = .ok v s' → Meets limit config p (.expr e) f' s'
  | needle {span : Span} {array : String} {e : Expr} {f : Frame} {s : State} :
    Meets limit config p (.expr (.indexOf span array e)) f s → Meets limit config p (.expr e) f s
  | argument {span : Span} {callee e : Expr} {fn : Embedded} {f : Frame} {s s' : State} {fuel : Nat}
      {v : Value} :
    Meets limit config p (.expr (.call span callee [e])) f s → Lowering.embeddedCallee callee = .ok fn →
    evaluate (.of config fuel) callee s = .ok v s' → Meets limit config p (.expr e) f s'
  /- Statements -/
  | initializer {span : Span} {ty : TypeName} {name : String} {e : Expr} {f : Frame} {s : State} :
    Meets limit config p (.stmt (.varDecl span ty name (some e))) f s → Meets limit config p (.expr e) f s
  | items {span : Span} {ty : TypeName} {name : String} {elem : Scalar} {items : List Expr} {f : Frame}
      {s : State} :
    Meets limit config p (.stmt (.arrayDecl span ty 1 name (.values items))) f s →
    ty.scalar? = some elem → Meets limit config p (.items elem items) f s
  | item {elem : Scalar} {e : Expr} {rest : List Expr} {f : Frame} {s : State} :
    Meets limit config p (.items elem (e :: rest)) f s → Meets limit config p (.expr e) f s
  | nextItem {elem : Scalar} {e : Expr} {rest : List Expr} {f f' : Frame} {s s' : State} {fuel : Nat}
      {v : Value} :
    Meets limit config p (.items elem (e :: rest)) f s → Moves (lowerAs e (.scalar elem)) f () f' →
    element (.of config fuel) elem 1 e s = .ok v s' → Meets limit config p (.items elem rest) f' s'
  | length {span : Span} {ty : TypeName} {name : String} {length : Expr} {f : Frame} {s : State} :
    Meets limit config p (.stmt (.arrayDecl span ty 1 name (.sized length))) f s →
    Meets limit config p (.expr length) f s
  | expr {span : Span} {e : Expr} {f : Frame} {s : State} :
    Meets limit config p (.stmt (.expr span e)) f s → Meets limit config p (.expr e) f s
  | args {span : Span} {args : List Expr} {f : Frame} {s : State} :
    Meets limit config p (.stmt (.print span args)) f s → Meets limit config p (.args args) f s
  | arg {e : Expr} {rest : List Expr} {f : Frame} {s : State} :
    Meets limit config p (.args (e :: rest)) f s → Meets limit config p (.expr e) f s
  | nextArg {span : Span} {e : Expr} {rest : List Expr} {f f' : Frame} {s s' : State} {fuel : Nat}
      {v : Value} :
    Meets limit config p (.args (e :: rest)) f s →
    Moves (do printTop span (← lowerExpr e)) f () f' → evaluate (.of config fuel) e s = .ok v s' →
    Meets limit config p (.args rest) f' s'
  | block {span : Span} {body : List Stmt} {f : Frame} {s : State} :
    Meets limit config p (.stmt (.block span body)) f s →
    Meets limit config p (.stmts body) f.openScope { s with env := s.env.push }
  | condition {span : Span} {c : Expr} {t : Stmt} {e : Option Stmt} {f : Frame} {s : State} :
    Meets limit config p (.stmt (.conditional span c t e)) f s → Meets limit config p (.expr c) f s
  | thenBranch {span : Span} {c : Expr} {t : Stmt} {e : Option Stmt} {f f' : Frame} {s s' : State}
      {fuel : Nat} :
    Meets limit config p (.stmt (.conditional span c t e)) f s → Moves (lowerCondition c) f () f' →
    Evaluation.condition c.span (evaluate (.of config fuel) c) s = .ok true s' →
    Meets limit config p (.stmts t.bodyOf) f'.openScope { s' with env := s'.env.push }
  | elseBranch {span : Span} {c : Expr} {t e : Stmt} {f f' : Frame} {s s' : State} {fuel : Nat} :
    Meets limit config p (.stmt (.conditional span c t (some e))) f s → Moves (lowerCondition c) f () f' →
    Evaluation.condition c.span (evaluate (.of config fuel) c) s = .ok false s' →
    Meets limit config p (.stmts e.bodyOf) f'.openScope { s' with env := s'.env.push }
  | whileLoop {span : Span} {c : Expr} {body : Stmt} {f : Frame} {s : State} :
    Meets limit config p (.stmt (.whileLoop span c body)) f s →
    Meets limit config p (.rounds (some c) none body) f s
  | init {span : Span} {init : Stmt} {c update : Option Expr} {body : Stmt} {f : Frame} {s : State} :
    Meets limit config p (.stmt (.forLoop span (some init) c update body)) f s →
    Meets limit config p (.stmt init) f.openScope { s with env := s.env.push }
  | forLoop {span : Span} {init : Stmt} {c update : Option Expr} {body : Stmt} {f f' : Frame}
      {s s' : State} {fuel : Nat} {flow : Flow} :
    Meets limit config p (.stmt (.forLoop span (some init) c update body)) f s →
    Moves (lowerStmt limit init) f.openScope () f' →
    execute (.of config fuel) init { s with env := s.env.push } = .ok flow s' →
    Meets limit config p (.rounds c update body) f' s'
  | forLoopOnly {span : Span} {c update : Option Expr} {body : Stmt} {f : Frame} {s : State} :
    Meets limit config p (.stmt (.forLoop span none c update body)) f s →
    Meets limit config p (.rounds c update body) f.openScope { s with env := s.env.push }
  | test {c : Expr} {update : Option Expr} {body : Stmt} {f : Frame} {s : State} :
    Meets limit config p (.rounds (some c) update body) f s → Meets limit config p (.expr c) f s
  | round {c update : Option Expr} {body : Stmt} {f f' : Frame} {s s' : State} {fuel : Nat}
      {done : Assembly.Label} :
    Meets limit config p (.rounds c update body) f s → Moves (loopTest c done) f () f' →
    roundTest (.of config fuel) c s = .ok true s' →
    Meets limit config p (.stmts body.bodyOf) f'.openScope { s' with env := s'.env.push }
  | update {c : Option Expr} {e : Expr} {body : Stmt} {f f₁ f₂ : Frame} {s s₁ s₂ : State}
      {fuel₁ fuel₂ : Nat} {flow : Flow} {done next : Assembly.Label} {level : Int} :
    Meets limit config p (.rounds c (some e) body) f s → Moves (loopTest c done) f () f₁ →
    roundTest (.of config fuel₁) c s = .ok true s₁ → Moves (lowerRound limit body done next level) f₁ () f₂ →
    asBody body.isBlock (execute (.of config fuel₂) body) s₁ = .ok flow s₂ → flow.goesOn = true →
    Meets limit config p (.expr e) f₂ s₂
  | nextRound {c update : Option Expr} {body : Stmt} {f f₁ f₂ f₃ : Frame} {s s₁ s₂ s₃ : State}
      {fuel₁ fuel₂ fuel₃ : Nat} {flow : Flow} {done next : Assembly.Label} {level : Int} :
    Meets limit config p (.rounds c update body) f s → Moves (loopTest c done) f () f₁ →
    roundTest (.of config fuel₁) c s = .ok true s₁ → Moves (lowerRound limit body done next level) f₁ () f₂ →
    asBody body.isBlock (execute (.of config fuel₂) body) s₁ = .ok flow s₂ → flow.goesOn = true →
    Moves (loopUpdate update) f₂ () f₃ → roundUpdate (.of config fuel₃) update s₂ = .ok () s₃ →
    Meets limit config p (.rounds c update body) f s₃
  | values {span : Span} {declared : TypeName} {name iterable : String} {body : Stmt} {f f' : Frame}
      {s s' : State} {elem : Scalar} {kind : Kind} {items : List Value} :
    Meets limit config p (.stmt (.forEach span declared name iterable body)) f s →
    Moves (lowerElement span name iterable) f elem f' →
    readArray span iterable s = .ok (kind, items) s' →
    Meets limit config p (.values span name elem body items) f' s'
  | value {span : Span} {name : String} {elem : Scalar} {body : Stmt} {v : Value} {items : List Value}
      {f : Frame} {s s' : State} :
    Meets limit config p (.values span name elem body (v :: items)) f s →
    declare span name (.scalar elem) v { s with env := s.env.push } = .ok () s' →
    Meets limit config p (.stmts body.bodyOf) f.openScope { s' with env := s'.env.push }
  | nextValue {span : Span} {name : String} {elem : Scalar} {body : Stmt} {v : Value}
      {items : List Value} {f f' : Frame} {s s' : State} {fuel : Nat} {flow : Flow}
      {done next : Assembly.Label} {level : Int} :
    Meets limit config p (.values span name elem body (v :: items)) f s →
    Moves (lowerRound limit body done next level) f () f' →
    inScope (do
      declare span name (.scalar elem) v
      asBody body.isBlock (execute (.of config fuel) body)) s = .ok flow s' → flow.goesOn = true →
    Meets limit config p (.values span name elem body items) f s'
  | subject {span : Span} {subject : Expr} {cases : List SwitchCase} {default : Option (List Stmt)}
      {f : Frame} {s : State} :
    Meets limit config p (.stmt (.switch span subject cases default)) f s →
    Meets limit config p (.expr subject) f s
  | cases {span : Span} {subject : Expr} {cases : List SwitchCase} {default : Option (List Stmt)}
      {kind : SlotKind} {f f' : Frame} {s s' : State} {fuel : Nat} {v : Value} :
    Meets limit config p (.stmt (.switch span subject cases default)) f s →
    Moves (do
      let kind ← lowerExpr subject
      let _ ← popSlot subject.span
      return kind) f kind f' →
    literal subject.span (evaluate (.of config fuel) subject) s = .ok v s' →
    Meets limit config p (.cases v kind cases) f' s'
  | caseValue {subject : Value} {span : Span} {value : Expr} {body : List Stmt}
      {rest : List SwitchCase} {kind : SlotKind} {f : Frame} {s : State} :
    Meets limit config p (.cases subject kind (.mk span value body :: rest)) f s →
    Meets limit config p (.expr value) f s
  | nextCase {subject v : Value} {span place : Span} {value : Expr} {body : List Stmt}
      {rest : List SwitchCase} {kind : SlotKind} {label : Assembly.Label} {f f' : Frame} {s s' : State}
      {fuel : Nat} :
    Meets limit config p (.cases subject kind (.mk span value body :: rest)) f s →
    Moves (matchCases place kind [(value, label)]) (f.push kind none) () f' →
    literal value.span (evaluate (.of config fuel) value) s = .ok v s' →
    Value.binary .eq subject v = .ok (.bool false) → Meets limit config p (.cases subject kind rest) f' s'
  | matched {span : Span} {subject : Expr} {cases : List SwitchCase} {default : Option (List Stmt)}
      {labels : List Assembly.Label} {f f' : Frame} {s s₁ s₂ : State} {fuel₁ fuel₂ : Nat} {v : Value}
      {position? : Option Nat} :
    Meets limit config p (.stmt (.switch span subject cases default)) f s →
    labels.length = cases.length →
    Moves (do matchCases subject.span (← lowerExpr subject) ((cases.map SwitchCase.value).zip labels))
      f () f' →
    literal subject.span (evaluate (.of config fuel₁) subject) s = .ok v s₁ →
    firstMatch v equalForSwitch (caseValues (.of config fuel₂) cases) s₁ = .ok position? s₂ →
    Meets limit config p (.bodies (bodiesFrom position? (cases.map SwitchCase.body) default)) f' s₂
  | body {body : List Stmt} {rest : List (List Stmt)} {f : Frame} {s : State} :
    Meets limit config p (.bodies (body :: rest)) f s →
    Meets limit config p (.stmts body) f.openScope { s with env := s.env.push }
  | nextBody {body : List Stmt} {rest : List (List Stmt)} {f f' : Frame} {s s' : State} {fuel : Nat} :
    Meets limit config p (.bodies (body :: rest)) f s →
    Moves (Lowering.inScope (Lowering.lowerStmts limit body)) f () f' →
    inScope (executeAll (.of config fuel) body) s = .ok .normal s' →
    Meets limit config p (.bodies rest) f' s'

end Arbor.Agreement
