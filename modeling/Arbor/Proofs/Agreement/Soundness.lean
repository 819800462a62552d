import Arbor.Proofs.Agreement.Meeting

/-!
This module contains the soundness of the generator for the evaluator: a program that is accepted fails only in ways
that are found by running it, and an expression that is lowered to a value of a kind evaluates to a value of that
kind.
-/

namespace Arbor.Agreement

open Lowering (Lower Frame Slot SlotKind JumpTargets Part StmtCode ExprCode TestCode UpdateCode Yields
  lowerExpr lowerAs lowerCondition lowerStmt loadVariable arrayElement popSlot pushValue printTop
  matchCases loopTest loopUpdate generate)
open Evaluation

/-! Frames that lowering leads to -/

section Frames

variable {f f' : Frame} {e : Expr} {kind target : SlotKind} {limit : Nat}

theorem exprCode_of_moves (h : Moves (lowerExpr e) f kind f') :
    ∃ len c n n', ExprCode f n none e kind len c n' ∧ f' = f.push kind len := by
  obtain ⟨t, t', ht, rfl, rfl⟩ := h
  obtain ⟨len, c, n, hcode, rfl⟩ := Lowering.writes_lowerExpr e _ _ _ ht
  exact ⟨len, c, _, n, hcode, rfl⟩

theorem exprCode_of_moves_lowerAs (h : Moves (lowerAs e target) f () f') :
    ∃ len c n n', ExprCode f n (some target) e target len c n' ∧ f' = f.push target len := by
  obtain ⟨t, t', ht, rfl, rfl⟩ := h
  obtain ⟨len, c, n, hcode, rfl⟩ := Lowering.exprCode_of_lowerAs ht
  exact ⟨len, c, _, n, hcode, rfl⟩

theorem exprCode_of_moves_lowerCondition (h : Moves (lowerCondition e) f () f') :
    f' = f ∧ ∃ len c n n', ExprCode f n none e .bool len c n' := by
  obtain ⟨t, t', ht, rfl, rfl⟩ := h
  obtain ⟨len, c, n, hcode, rfl⟩ := Lowering.exprCode_of_lowerCondition ht
  exact ⟨rfl, len, c, _, n, hcode⟩

theorem stmtCode_of_moves {stmt : Stmt} (hf : f.Nested) (h : Moves (lowerStmt limit stmt) f () f') :
    ∃ j n d c n' d', StmtCode limit j f n d (.stmt stmt) c f' n' d' := by
  obtain ⟨t, t', ht, rfl, rfl⟩ := h
  obtain ⟨c, f', n, d, hcode, rfl⟩ := Lowering.performs_lowerStmt stmt _ _ _ ht hf
  exact ⟨_, _, _, c, n, d, hcode⟩

theorem testCode_of_moves {cond : Option Expr} {done : Assembly.Label}
    (h : Moves (loopTest cond done) f () f') :
    f' = f ∧ ∃ n c n', TestCode f n done cond c n' := by
  obtain ⟨t, t', ht, rfl, rfl⟩ := h
  obtain ⟨c, n, hcode, rfl⟩ := Lowering.testCode_of_yields ht
  exact ⟨rfl, _, c, n, hcode⟩

theorem updateCode_of_moves {update : Option Expr} (h : Moves (loopUpdate update) f () f') :
    ∃ n c n', UpdateCode f n update c n' := by
  obtain ⟨t, t', ht, rfl, rfl⟩ := h
  obtain ⟨c, n, hcode, rfl⟩ := Lowering.updateCode_of_yields ht
  exact ⟨_, c, n, hcode⟩

theorem scopeCode_of_moves {body : Stmt} {done next : Assembly.Label} {level : Int} (hf : f.Nested)
    (h : Moves (lowerRound limit body done next level) f () f') :
    f' = f ∧ ∃ j n d c n' d',
      StmtCode limit (JumpTargets.inLoop j done next level) f n d (.scope body.bodyOf) c f n' d' := by
  obtain ⟨t, t', ht, rfl, rfl⟩ := h
  obtain ⟨c, f', n, d, hcode, rfl⟩ := (Lowering.performs_lowerStmt body).asBody.loopBody ht hf
  obtain rfl := hcode.frame_scope
  exact ⟨rfl, _, _, _, c, n, d, hcode⟩

end Frames

/-! Sites -/

section Sites

variable {α : Type} {f f' : Frame} {s s' : State} {x : Run α} {a : α}

theorem Sound.holds {Q : α → Prop} (hx : Sound f x Q) (hs : Agrees f s) (h : x s = .ok a s') :
    Q a ∧ Agrees f s' :=
  Triple.result hx hs h

theorem Runs.holds {Q : α → State → Prop} (hx : Runs f x Q) (hs : Agrees f s) (h : x s = .ok a s') :
    Q a s' :=
  Triple.result hx hs h

structure Joint (f : Frame) (s : State) : Prop where
  nested : f.Nested
  agrees : Agrees f s

namespace Joint

theorem start (config : EvaluatorConfig) : Joint .empty (Session.start config).state :=
  ⟨.empty, .start config⟩

theorem push {kind : SlotKind} {len : Option Nat} (h : Joint f s) : Joint (f.push kind len) s :=
  ⟨h.nested.push, Agrees.push_iff.mpr h.agrees⟩

theorem openScope (h : Joint f s) : Joint f.openScope { s with env := s.env.push } :=
  ⟨h.nested.openScope, h.agrees.openScope⟩

theorem nested_inEach {base elem : SlotKind} {len : Option Nat} {name : String} (h : Joint f s) :
    (inEach f base len elem name).Nested :=
  (((h.nested.openScope.pushNamed _ _ _).pushNamed _ _ _).openScope).pushNamed _ _ _

theorem after {Q : α → Prop} (h : Joint f s) (hx : Sound f x Q) (hrun : x s = .ok a s') : Joint f s' :=
  ⟨h.nested, (hx.holds h.agrees hrun).2⟩

end Joint

/--
What is known of a site that the generator and the evaluator meet at. In the rounds of a loop over an array the
generator has pushed the element, which the evaluator declares anew in every round.
-/
def Known (f : Frame) (s : State) : Site → Prop
  | .expr e => Joint f s ∧ PlainNames e
  | .items _ items => Joint f s ∧ ∀ e ∈ items, PlainNames e
  | .args args => Joint f s ∧ ∀ e ∈ args, PlainNames e
  | .stmt stmt => Joint f s ∧ EachPart Stmt.Regular [stmt]
  | .stmts body => Joint f s ∧ EachPart Stmt.Regular body
  | .rounds cond update body =>
    Joint f s ∧ (∀ e ∈ cond, PlainNames e) ∧ (∀ e ∈ update, PlainNames e) ∧ EachPart Stmt.Regular [body]
  | .values _ name elem body items =>
    (∃ g base len, Joint g s ∧ f = inEach g base len (.scalar elem) name) ∧
    Declarable Plain name ∧ EachPart Stmt.Regular [body] ∧ ∀ v ∈ items, v.kind = .scalar elem
  | .cases _ _ cases => Joint f s ∧ ∀ e ∈ cases.map SwitchCase.value, PlainNames e
  | .bodies bodies => Joint f s ∧ ∀ body ∈ bodies, EachPart Stmt.Regular body

end Sites

/-! Expressions -/

section Expressions

variable {cx : Context} {f f' : Frame} {s s' : State} {e : Expr} {kind target : SlotKind} {v : Value}

theorem Joint.evaluated (h : Joint f s) (hnames : PlainNames e) (hmoves : Moves (lowerExpr e) f kind f')
    (hrun : literal e.span (evaluate cx e) s = .ok v s') : Joint f' s' := by
  obtain ⟨len, c, n, n', hcode, rfl⟩ := exprCode_of_moves hmoves
  exact (h.after (sound_evaluate hcode hnames).suits_literal hrun).push

theorem Joint.evaluatedAs (h : Joint f s) (hnames : PlainNames e)
    (hmoves : Moves (lowerAs e target) f () f')
    (hrun : Evaluation.literal e.span (evaluate cx e) s = .ok v s') : Joint f' s' := by
  obtain ⟨len, c, n, n', hcode, rfl⟩ := exprCode_of_moves_lowerAs hmoves
  exact (h.after (sound_evaluate hcode hnames).suits_literal hrun).push

theorem Joint.condition {b : Bool} (h : Joint f s) (hnames : PlainNames e)
    (hmoves : Moves (lowerCondition e) f () f')
    (hrun : Evaluation.condition e.span (evaluate cx e) s = .ok b s') : Joint f' s' := by
  obtain ⟨rfl, len, c, n, n', hcode⟩ := exprCode_of_moves_lowerCondition hmoves
  exact h.after (sound_evaluate hcode hnames).suits_condition hrun

theorem Joint.loaded {span : Span} {name : String} (h : Joint f s)
    (hmoves : Moves (loadVariable span name) f kind f') : Joint f' s := by
  obtain ⟨t, t', ht, rfl, rfl⟩ := hmoves
  obtain ⟨offset, slot, hslot, rfl, rfl⟩ := Lowering.yields_loadVariable ht
  exact h.push

theorem Joint.otherwise {b : Bool} {t : Expr} {span : Span} (h : Joint f s) (hnames : PlainNames e)
    (hmoves : Moves (do
      lowerCondition e
      let _ ← lowerExpr t
      let _ ← popSlot span) f () f')
    (hrun : Evaluation.condition e.span (evaluate cx e) s = .ok b s') : Joint f' s' := by
  obtain ⟨t₀, t₃, ht, rfl, rfl⟩ := hmoves
  simp only [Lowering.yields_bind] at ht
  obtain ⟨_, t₁, h₁, kind, t₂, h₂, _, _, h₃, h₄⟩ := ht
  obtain ⟨len, c, n, hcode, rfl⟩ := Lowering.exprCode_of_lowerCondition h₁
  obtain ⟨len', c', n', _, rfl⟩ := Lowering.writes_lowerExpr t _ _ _ h₂
  simp at h₃ h₄
  rw [h₄, h₃.2]
  exact h.after (sound_evaluate hcode hnames).suits_condition hrun

theorem Joint.loadedElement {span : Span} {name : String} (h : Joint f s) (hnames : PlainNames e)
    (hmoves : Moves (do
      let elem ← arrayElement span name
      lowerAs e .int
      pushValue .t0 (.scalar elem)) f () f')
    (hrun : Evaluation.literal e.span (evaluate cx e) s = .ok v s') : Joint f' s' := by
  obtain ⟨t₀, t₃, ht, rfl, rfl⟩ := hmoves
  simp only [Lowering.yields_bind] at ht
  obtain ⟨elem, t₁, h₁, _, t₂, h₂, h₃⟩ := ht
  obtain ⟨_, _, _, _, rfl⟩ := Lowering.yields_arrayElement h₁
  obtain ⟨len, c, n, hcode, rfl⟩ := Lowering.exprCode_of_lowerAs h₂
  simp at h₃
  rw [h₃]
  exact (h.after (sound_evaluate hcode hnames).suits_literal hrun).push.push

theorem Joint.callee {callee : Expr} {fn : Embedded} (h : Joint f s)
    (hcallee : Lowering.embeddedCallee callee = .ok fn) (hrun : evaluate cx callee s = .ok v s') :
    Joint f s' := by
  obtain ⟨span, rfl⟩ := embeddedCallee_eq hcallee
  rw [evaluate, readVariable_eq (h.agrees.embedded fn)] at hrun
  cases hrun
  exact h

theorem Joint.item {elem : Scalar} (h : Joint f s) (hnames : PlainNames e)
    (hmoves : Moves (lowerAs e (.scalar elem)) f () f') (hrun : element cx elem 1 e s = .ok v s') :
    Joint f' s' := by
  obtain ⟨len, c, n, n', hcode, rfl⟩ := exprCode_of_moves_lowerAs hmoves
  rw [element_eq] at hrun
  exact (h.after (sound_convertedElement (sound_evaluate hcode hnames)) hrun).push

theorem Joint.printed {span : Span} (h : Joint f s) (hnames : PlainNames e)
    (hmoves : Moves (do printTop span (← lowerExpr e)) f () f') (hrun : evaluate cx e s = .ok v s') :
    Joint f' s' := by
  obtain ⟨t₀, t₂, ht, rfl, rfl⟩ := hmoves
  rw [Lowering.yields_bind] at ht
  obtain ⟨kind, t₁, h₁, h₂⟩ := ht
  obtain ⟨len, c, n, hcode, rfl⟩ := Lowering.writes_lowerExpr e _ _ _ h₁
  rw [Lowering.shownCode_of_yields rfl h₂]
  exact h.after (sound_evaluate hcode hnames) hrun

end Expressions

/-! Statements -/

section Statements

variable {cx : Context} {f f₁ f₂ : Frame} {s s₁ s₂ : State} {limit : Nat} {body stmt : Stmt}
  {c update : Option Expr} {flow : Flow} {done next : Assembly.Label} {level : Int}

theorem Joint.executed (h : Joint f s) (hregular : EachPart Stmt.Regular [stmt])
    (hmoves : Moves (lowerStmt limit stmt) f () f₁) (hrun : execute cx stmt s = .ok flow s₁) :
    Joint f₁ s₁ := by
  obtain ⟨j, n, d, c, n', d', hcode⟩ := stmtCode_of_moves h.nested hmoves
  have hruns : Runs f (execute cx stmt) fun flow t => Allowed j flow ∧ Agrees f₁ t :=
    StmtCode.ends cx hcode hregular
  exact ⟨hcode.nested h.nested, (hruns.holds h.agrees hrun).2⟩

theorem Joint.tested {b : Bool} (h : Joint f s) (hnames : ∀ e ∈ c, PlainNames e)
    (hmoves : Moves (loopTest c done) f () f₁) (hrun : roundTest cx c s = .ok b s₁) : Joint f₁ s₁ := by
  obtain ⟨rfl, n, code, n', hcode⟩ := testCode_of_moves hmoves
  exact ⟨h.nested, (runs_roundTest hcode hnames).holds h.agrees hrun⟩

theorem Joint.round (h : Joint f s) (hregular : EachPart Stmt.Regular [body])
    (hmoves : Moves (lowerRound limit body done next level) f () f₁)
    (hrun : asBody body.isBlock (execute cx body) s = .ok flow s₁) : Joint f₁ s₁ := by
  obtain ⟨rfl, j, n, d, code, n', d', hcode⟩ := scopeCode_of_moves h.nested hmoves
  have hbody := runs_bodyOf hregular (StmtCode.ends cx hcode)
  exact ⟨h.nested, (hbody.holds h.agrees hrun).2⟩

theorem Joint.eachRound {base : SlotKind} {len : Option Nat} {elem : Scalar} {span : Span} {name : String}
    {v : Value} (h : Joint f s) (hname : Declarable Plain name) (hv : v.kind = .scalar elem)
    (hregular : EachPart Stmt.Regular [body])
    (hmoves : Moves (lowerRound limit body done next level) (inEach f base len (.scalar elem) name) () f₁)
    (hrun : inScope (do
      declare span name (.scalar elem) v
      asBody body.isBlock (execute cx body)) s = .ok flow s₁) : Joint f s₁ := by
  obtain ⟨rfl, j, n, d, code, n', d', hcode⟩ := scopeCode_of_moves h.nested_inEach hmoves
  have hbody := runs_bodyOf hregular (StmtCode.ends cx hcode)
  exact ⟨h.nested, ((runs_round hname hv hbody).holds h.agrees hrun).2⟩

theorem Joint.updated (h : Joint f s) (hnames : ∀ e ∈ update, PlainNames e)
    (hmoves : Moves (loopUpdate update) f () f₁) (hrun : roundUpdate cx update s = .ok () s₁) :
    Joint f s₁ := by
  obtain ⟨n, code, n', hcode⟩ := updateCode_of_moves hmoves
  exact ⟨h.nested, (runs_roundUpdate hcode hnames).holds h.agrees hrun⟩

theorem Joint.scope {body : List Stmt} (h : Joint f s) (hregular : EachPart Stmt.Regular body)
    (hmoves : Moves (Lowering.inScope (Lowering.lowerStmts limit body)) f () f₁)
    (hrun : inScope (executeAll cx body) s = .ok flow s₁) : Joint f₁ s₁ := by
  obtain ⟨t, t', ht, rfl, rfl⟩ := hmoves
  obtain ⟨c, f', n, d, hcode, rfl⟩ := (Lowering.performs_lowerStmts body).inScope _ _ _ ht h.nested
  obtain rfl := hcode.frame_scope
  have hruns : Runs t.frame (inScope (executeAll cx body)) fun flow t' =>
      Allowed t.targets flow ∧ Agrees t.frame t' :=
    StmtCode.ends cx hcode hregular
  exact ⟨h.nested, (hruns.holds h.agrees hrun).2⟩

theorem Joint.subject {e : Expr} {kind : SlotKind} {v : Value} (h : Joint f s) (hnames : PlainNames e)
    (hmoves : Moves (do
      let kind ← lowerExpr e
      let _ ← popSlot e.span
      return kind) f kind f₁)
    (hrun : literal e.span (evaluate cx e) s = .ok v s₁) : Joint f₁ s₁ := by
  obtain ⟨t, t', ht, rfl, rfl⟩ := hmoves
  rw [Lowering.yields_bind] at ht
  obtain ⟨kind', t₁, h₁, h₂⟩ := ht
  obtain ⟨len, c, n, hcode, rfl⟩ := Lowering.writes_lowerExpr e _ _ _ h₁
  simp [and_assoc] at h₂
  rw [h₂.1]
  exact h.after (sound_evaluate hcode hnames).suits_literal hrun

theorem Joint.compared {e : Expr} {kind : SlotKind} {v : Value} {span : Span} {label : Assembly.Label}
    (h : Joint f s) (hmoves : Moves (matchCases span kind [(e, label)]) (f.push kind none) () f₁)
    (hrun : literal e.span (evaluate cx e) s = .ok v s₁) : Joint f₁ s₁ := by
  obtain ⟨t, t', ht, hframe, rfl⟩ := hmoves
  obtain ⟨c, hcode, rfl⟩ := Lowering.casesCode_of_yields hframe ht
  obtain ⟨w, hw, hkind, _⟩ := evaluate_of_casesCode hcode _ List.mem_cons_self
  have hvalue : Sound f (evaluate cx e) fun u => u = w := by
    rw [show evaluate cx e = pure w from hw]
    exact .pure rfl
  have hliteral : Sound f (literal e.span (evaluate cx e)) fun u => u = w := by
    apply hvalue.literal
    rintro _ rfl
    exact isLiteral_of_kind hkind
  exact h.after hliteral hrun

theorem Joint.matched {e : Expr} {v : Value} {span : Span} {cases : List SwitchCase}
    {labels : List Assembly.Label} {cx' : Context} {position? : Option Nat} (h : Joint f s)
    (hnames : PlainNames e) (hlabels : labels.length = cases.length)
    (hmoves : Moves (do
      matchCases span (← lowerExpr e) ((cases.map SwitchCase.value).zip labels)) f () f₁)
    (hrun : literal e.span (evaluate cx e) s = .ok v s₁)
    (hmatch : firstMatch v equalForSwitch (caseValues cx' cases) s₁ = .ok position? s₂) :
    Joint f₁ s₂ := by
  obtain ⟨t, t', ht, rfl, rfl⟩ := hmoves
  rw [Lowering.yields_bind] at ht
  obtain ⟨kind, t₁, h₁, h₂⟩ := ht
  obtain ⟨len, c, n, hcode, rfl⟩ := Lowering.writes_lowerExpr e _ _ _ h₁
  obtain ⟨c', hcases, rfl⟩ := Lowering.casesCode_of_yields rfl h₂
  obtain ⟨hv, hs₁⟩ := (sound_evaluate hcode hnames).suits_literal.holds h.agrees hrun
  exact ⟨h.nested, (runs_cases hlabels hcases (hv.kind rfl)).holds hs₁ hmatch⟩

theorem frame_of_moves_lowerElement {span : Span} {name iterable : String} {elem : Scalar}
    (hmoves : Moves (lowerElement span name iterable) f elem f₁) :
    ∃ offset slot, f.resolve? iterable = some (offset, slot) ∧ slot.kind = .array elem ∧
      f₁ = inEach f slot.kind slot.length (.scalar elem) name := by
  obtain ⟨t, t', ht, rfl, rfl⟩ := hmoves
  unfold lowerElement at ht
  rw [Lowering.yields_bind] at ht
  obtain ⟨elem', t₁, h₁, h₂⟩ := ht
  obtain ⟨offset, slot, hslot, hkind, rfl⟩ := Lowering.yields_arrayElement h₁
  simp [Lowering.loadVariable, hslot, and_assoc] at h₂
  obtain ⟨rfl, rfl⟩ := h₂
  exact ⟨offset, slot, hslot, hkind, rfl⟩

end Statements

/-! Rounds and cases -/

namespace Known

variable {cx cx' : Context} {f f₁ f₂ f₃ : Frame} {s s₁ s₂ s₃ : State} {limit : Nat} {span : Span}
  {name iterable : String} {declared : TypeName} {elem : Scalar} {body : Stmt} {c update : Option Expr}
  {flow : Flow} {done next : Assembly.Label} {level : Int} {subject : Expr} {cases : List SwitchCase}
  {default : Option (List Stmt)} {kind : SlotKind} {v w : Value}

/--
Lowering one round comes back to the frame of the loop, which is therefore that of every round.
-/
theorem nextRound {cx₁ cx₂ cx₃ : Context} (h : Known f s (.rounds c update body))
    (htest : Moves (loopTest c done) f () f₁) (htested : roundTest cx₁ c s = .ok true s₁)
    (hround : Moves (lowerRound limit body done next level) f₁ () f₂)
    (hrun : asBody body.isBlock (execute cx₂ body) s₁ = .ok flow s₂)
    (hupdate : Moves (loopUpdate update) f₂ () f₃) (hupdated : roundUpdate cx₃ update s₂ = .ok () s₃) :
    Known f s₃ (.rounds c update body) := by
  have htestJoint := h.1.tested h.2.1 htest htested
  have hjoint := (htestJoint.round h.2.2.2 hround hrun).updated h.2.2.1 hupdate hupdated
  obtain ⟨rfl, _⟩ := testCode_of_moves htest
  obtain ⟨rfl, _⟩ := scopeCode_of_moves h.1.nested hround
  exact ⟨hjoint, h.2⟩

theorem values {read : Kind} {items : List Value}
    (h : Known f s (.stmt (.forEach span declared name iterable body)))
    (hmoves : Moves (lowerElement span name iterable) f elem f₁)
    (hrun : readArray span iterable s = .ok (read, items) s₁) :
    Known f₁ s₁ (.values span name elem body items) := by
  obtain ⟨hjoint, hstmt⟩ := h
  obtain ⟨offset, slot, hslot, hkind, rfl⟩ := frame_of_moves_lowerElement hmoves
  have hregular := eachPart_head hstmt
  have hiterable := hregular.ownNames _ (.tail _ List.mem_cons_self)
  obtain ⟨⟨rfl, hwell⟩, hs⟩ := (sound_readArray hiterable hslot hkind).holds hjoint.agrees hrun
  exact ⟨⟨_, _, _, ⟨hjoint.nested, hs⟩, rfl⟩, declarable hregular List.mem_cons_self rfl,
    eachPart_forEach hstmt, fun v hv => hwell.kind_of_mem hv⟩

theorem value {items : List Value} (h : Known f s (.values span name elem body (v :: items)))
    (hrun : declare span name (.scalar elem) v { s with env := s.env.push } = .ok () s₁) :
    Known f.openScope { s₁ with env := s₁.env.push } (.stmts body.bodyOf) := by
  obtain ⟨⟨g, base, len, hjoint, rfl⟩, hname, hbody, hitems⟩ := h
  have hs : Agrees (inEach g base len (.scalar elem) name) s₁ :=
    (runs_declareEach hname (List.forall_mem_cons.mp hitems).1).result ⟨_, hjoint.agrees, rfl⟩ hrun
  exact ⟨.openScope ⟨hjoint.nested_inEach, hs⟩, eachPart_bodyOf hbody⟩

theorem nextValue {items : List Value} (h : Known f s (.values span name elem body (v :: items)))
    (hmoves : Moves (lowerRound limit body done next level) f () f₁)
    (hrun : inScope (do
      declare span name (.scalar elem) v
      asBody body.isBlock (execute cx body)) s = .ok flow s₁) :
    Known f s₁ (.values span name elem body items) := by
  obtain ⟨⟨g, base, len, hjoint, rfl⟩, hname, hbody, hitems⟩ := h
  rw [List.forall_mem_cons] at hitems
  have hnext := hjoint.eachRound hname hitems.1 hbody hmoves hrun
  exact ⟨⟨g, base, len, hnext, rfl⟩, hname, hbody, hitems.2⟩

theorem switchCases (h : Known f s (.stmt (.switch span subject cases default)))
    (hmoves : Moves (do
      let kind ← lowerExpr subject
      let _ ← popSlot subject.span
      return kind) f kind f₁)
    (hrun : literal subject.span (evaluate cx subject) s = .ok v s₁) :
    Known f₁ s₁ (.cases v kind cases) := by
  obtain ⟨hjoint, hstmt⟩ := h
  have hnames := plainNames_of_mem hstmt List.mem_cons_self
  exact ⟨hjoint.subject hnames hmoves hrun, fun e he => plainNames_of_mem hstmt (.tail _ he)⟩

theorem nextCase {place : Span} {value : Expr} {first : List Stmt} {rest : List SwitchCase}
    {label : Assembly.Label} (h : Known f s (.cases v kind (.mk span value first :: rest)))
    (hmoves : Moves (matchCases place kind [(value, label)]) (f.push kind none) () f₁)
    (hrun : literal value.span (evaluate cx value) s = .ok w s₁) : Known f₁ s₁ (.cases v kind rest) := by
  obtain ⟨hjoint, hnames⟩ := h
  rw [List.map_cons, List.forall_mem_cons] at hnames
  exact ⟨hjoint.compared hmoves hrun, hnames.2⟩

theorem matched {labels : List Assembly.Label} {position? : Option Nat}
    (h : Known f s (.stmt (.switch span subject cases default))) (hlabels : labels.length = cases.length)
    (hmoves : Moves (do
      matchCases subject.span (← lowerExpr subject) ((cases.map SwitchCase.value).zip labels)) f () f₁)
    (hrun : literal subject.span (evaluate cx subject) s = .ok v s₁)
    (hmatch : firstMatch v equalForSwitch (caseValues cx' cases) s₁ = .ok position? s₂) :
    Known f₁ s₂ (.bodies (bodiesFrom position? (cases.map SwitchCase.body) default)) := by
  obtain ⟨hjoint, hstmt⟩ := h
  have hnames := plainNames_of_mem hstmt List.mem_cons_self
  refine ⟨hjoint.matched hnames hlabels hmoves hrun hmatch, fun body hbody => ?_⟩
  exact eachPart_switch hstmt (mem_bodiesFrom hbody)

end Known

/-! Meetings -/

theorem known_of_meets {limit : Nat} {config : EvaluatorConfig} {p : Program} {site : Site} {f : Frame}
    {s : State} (hregular : EachPart Stmt.Regular p.statements) (h : Meets limit config p site f s) :
    Known f s site := by
  induction h with
  | program => exact ⟨.start config, hregular⟩
  | statement _ ih =>
    obtain ⟨hjoint, hstmts⟩ := ih
    rw [eachPart_cons] at hstmts
    exact ⟨hjoint, eachPart_cons.mpr ⟨hstmts.1, eachPart_nil⟩⟩
  | nextStatement _ hmoves hrun ih =>
    obtain ⟨hjoint, hstmts⟩ := ih
    rw [eachPart_cons] at hstmts
    exact ⟨hjoint.executed (eachPart_cons.mpr ⟨hstmts.1, eachPart_nil⟩) hmoves hrun, hstmts.2⟩
  | left _ ih => exact ⟨ih.1, (plainNames_binary.mp ih.2).1⟩
  | right _ _ hmoves hrun ih =>
    obtain ⟨hl, hr⟩ := plainNames_binary.mp ih.2
    exact ⟨ih.1.evaluated hl hmoves hrun, hr⟩
  | undecided _ _ hmoves hrun ih =>
    obtain ⟨hl, hr⟩ := plainNames_binary.mp ih.2
    exact ⟨ih.1.condition hl hmoves hrun, hr⟩
  | operand _ ih | inner _ ih => exact ih
  | assigned _ ih => exact ⟨ih.1, (plainNames_assign.mp ih.2).2⟩
  | combined _ _ hmoves ih => exact ⟨ih.1.loaded hmoves, (plainNames_assign.mp ih.2).2⟩
  | choice _ ih => exact ⟨ih.1, (plainNames_ternary.mp ih.2).1⟩
  | whenTrue _ hmoves hrun ih =>
    obtain ⟨hc, ht, _⟩ := plainNames_ternary.mp ih.2
    exact ⟨ih.1.condition hc hmoves hrun, ht⟩
  | whenFalse _ hmoves hrun ih =>
    obtain ⟨hc, _, he⟩ := plainNames_ternary.mp ih.2
    exact ⟨ih.1.otherwise hc hmoves hrun, he⟩
  | position _ ih => exact ⟨ih.1, (plainNames_index.mp ih.2).2⟩
  | target _ ih => exact ⟨ih.1, (plainNames_indexAssign.mp ih.2).2.1⟩
  | stored _ hmoves hrun ih =>
    obtain ⟨_, hi, he⟩ := plainNames_indexAssign.mp ih.2
    exact ⟨ih.1.evaluatedAs hi hmoves hrun, he⟩
  | storedCombined _ _ hmoves hrun ih =>
    obtain ⟨_, hi, he⟩ := plainNames_indexAssign.mp ih.2
    exact ⟨ih.1.loadedElement hi hmoves hrun, he⟩
  | needle _ ih => exact ⟨ih.1, (plainNames_indexOf.mp ih.2).2⟩
  | argument _ hcallee hrun ih => exact ⟨ih.1.callee hcallee hrun, (plainNames_call.mp ih.2).2⟩
  | initializer _ ih | length _ ih | expr _ ih | condition _ ih | subject _ ih =>
    exact ⟨ih.1, plainNames_of_mem ih.2 List.mem_cons_self⟩
  | items _ _ ih | args _ ih => exact ⟨ih.1, (eachPart_head ih.2).exprs⟩
  | item _ ih | arg _ ih => exact ⟨ih.1, ih.2 _ List.mem_cons_self⟩
  | nextItem _ hmoves hrun ih =>
    obtain ⟨hjoint, hnames⟩ := ih
    rw [List.forall_mem_cons] at hnames
    exact ⟨hjoint.item hnames.1 hmoves hrun, hnames.2⟩
  | nextArg _ hmoves hrun ih =>
    obtain ⟨hjoint, hnames⟩ := ih
    rw [List.forall_mem_cons] at hnames
    exact ⟨hjoint.printed hnames.1 hmoves hrun, hnames.2⟩
  | block _ ih => exact ⟨ih.1.openScope, eachPart_block ih.2⟩
  | thenBranch _ hmoves hrun ih =>
    have hnames := plainNames_of_mem ih.2 List.mem_cons_self
    exact ⟨(ih.1.condition hnames hmoves hrun).openScope,
      eachPart_bodyOf (eachPart_whenTrue ih.2)⟩
  | elseBranch _ hmoves hrun ih =>
    have hnames := plainNames_of_mem ih.2 List.mem_cons_self
    exact ⟨(ih.1.condition hnames hmoves hrun).openScope,
      eachPart_bodyOf (eachPart_whenFalse ih.2)⟩
  | whileLoop _ ih =>
    refine ⟨ih.1, ?_, by simp, eachPart_while ih.2⟩
    rintro _ ⟨⟩
    exact plainNames_of_mem ih.2 List.mem_cons_self
  | init _ ih => exact ⟨ih.1.openScope, (eachPart_for ih.2).1⟩
  | forLoop _ hmoves hrun ih =>
    obtain ⟨hinit, hbody⟩ := eachPart_for ih.2
    obtain ⟨htest, hupdate⟩ := plainNames_for ih.2
    exact ⟨ih.1.openScope.executed hinit hmoves hrun, htest, hupdate, hbody⟩
  | forLoopOnly _ ih =>
    obtain ⟨htest, hupdate⟩ := plainNames_for ih.2
    exact ⟨ih.1.openScope, htest, hupdate, (eachPart_for ih.2).2⟩
  | test _ ih => exact ⟨ih.1, ih.2.1 _ rfl⟩
  | round _ hmoves hrun ih =>
    exact ⟨(ih.1.tested ih.2.1 hmoves hrun).openScope, eachPart_bodyOf ih.2.2.2⟩
  | update _ htest htested hround hrun _ ih =>
    exact ⟨(ih.1.tested ih.2.1 htest htested).round ih.2.2.2 hround hrun, ih.2.2.1 _ rfl⟩
  | nextRound _ htest htested hround hrun _ hupdate hupdated ih =>
    exact ih.nextRound htest htested hround hrun hupdate hupdated
  | values _ hmoves hrun ih => exact ih.values hmoves hrun
  | value _ hrun ih => exact ih.value hrun
  | nextValue _ hmoves hrun _ ih => exact ih.nextValue hmoves hrun
  | cases _ hmoves hrun ih => exact ih.switchCases hmoves hrun
  | caseValue _ ih => exact ⟨ih.1, ih.2 _ List.mem_cons_self⟩
  | nextCase _ hmoves hrun _ ih => exact ih.nextCase hmoves hrun
  | matched _ hlabels hmoves hrun hmatch ih => exact ih.matched hlabels hmoves hrun hmatch
  | body _ ih => exact ⟨ih.1.openScope, ih.2 _ List.mem_cons_self⟩
  | nextBody _ hmoves hrun ih =>
    obtain ⟨hjoint, hbodies⟩ := ih
    rw [List.forall_mem_cons] at hbodies
    exact ⟨hjoint.scope hbodies.1 hmoves hrun, hbodies.2⟩

/-! Programs -/

/--
Top-level statements that are lowered in a frame report only errors that are found by running them.
-/
theorem dynamic_of_runAll {limit fuel n n' : Nat} {config : EvaluatorConfig} {f f' : Frame}
    {d d' : Assembly.DataSection} {c : List Assembly.Line} {body : List Stmt} {s : State}
    (habort : config.abortOnError = true) (hregular : EachPart Stmt.Regular body) (hs : Agrees f s)
    (h : StmtCode limit .empty f n d (.seq body) c f' n' d') :
    ∀ e ∈ (Session.runAll config fuel body s).1, Dynamic e.kind := by
  induction body generalizing f n d c s with
  | nil => simp [Session.runAll]
  | cons stmt rest ih =>
    rw [eachPart_cons] at hregular
    cases h with
    | cons hstmt hrest =>
      have hruns := StmtCode.ends (.of config fuel) hstmt
        (eachPart_cons.mpr ⟨hregular.1, eachPart_nil⟩)
      have hend := hruns s hs
      unfold Session.runAll
      revert hend
      cases execute (.of config fuel) stmt s with
      | ok flow s' =>
        rintro ⟨hflow, hs'⟩
        cases flow with
        | normal => exact ih hregular.2 hs' hrest
        | breaking | continuing => exact (hflow rfl).elim
        | returning => exact hflow.elim
      | error halt s' =>
        intro hhalt
        cases halt with
        | outOfFuel => simp
        | error e => simpa [habort] using (show Dynamic e.kind from hhalt)

/--
A program that is accepted reports only errors that are found by running it, and wherever the generator and the
evaluator meet at an expression, its value has the kind that the generator found.
-/
theorem sound_of_generate {generator : GeneratorConfig} {config : EvaluatorConfig} {p : Program}
    {file : Assembly.File} (haccepted : generate generator p = .ok file)
    (hregular : ∀ s ∈ Stmt.partsOfAll p.statements, s.Regular) (habort : config.abortOnError = true) :
    (∀ fuel, ∃ errors, ((Session.start config).run fuel p).diagnostics = errors.map EvalError.diagnostic ∧
      errors = (Session.runAll config fuel p.statements (Session.start config).state).1 ∧
      ∀ e ∈ errors, Dynamic e.kind) ∧
    ∀ (e : Expr) (t t' : Lowering.State) (s s' : State) (kind : SlotKind) (fuel : Nat) (v : Value),
      Meets generator.unrollLimit config p (.expr e) t.frame s → lowerExpr e t = .ok kind t' →
      evaluate (.of config fuel) e s = .ok v s' → v.kind = kind.kind := by
  refine ⟨fun fuel => ⟨_, rfl, rfl, ?_⟩, fun e t t' s s' kind fuel v hmeets hlower hrun => ?_⟩
  · obtain ⟨c, f, n, d, hcode, _⟩ := Lowering.stmtCode_of_generate haccepted
    exact dynamic_of_runAll habort hregular (.start config) hcode
  · obtain ⟨hjoint, hnames⟩ := known_of_meets hregular hmeets
    obtain ⟨len, c, n, hcode, _⟩ := Lowering.writes_lowerExpr e t t' kind hlower
    exact ((sound_evaluate hcode hnames).holds hjoint.agrees hrun).1.kind rfl

def dividingProgram : Program where
  statements := [
    .varDecl .unplaced .int "n" (some (.literal .unplaced (.int 0))),
    .forLoop .unplaced (some (.varDecl .unplaced .int "i" (some (.literal .unplaced (.int 0)))))
      (some (.binary .unplaced .lt (.var .unplaced "i") (.literal .unplaced (.int 3))))
      (some (.step .unplaced "i" .up))
      (.expr .unplaced (.assign .unplaced "n" .add (.var .unplaced "i"))),
    .print .unplaced [.binary .unplaced .div (.literal .unplaced (.int 1))
      (.binary .unplaced .sub (.var .unplaced "n") (.literal .unplaced (.int 3)))]]

def belowThree : Expr :=
  .binary .unplaced .lt (.var .unplaced "i") (.literal .unplaced (.int 3))

def addedIndex : Expr :=
  .assign .unplaced "n" .add (.var .unplaced "i")

theorem moves_of_finished? {x : Lower Unit} {f f' : Frame}
    (h : (finished? (x { Lowering.State.start true with frame := f })).map (fun r => r.2.frame) = some f') :
    Moves x f () f' := by
  obtain ⟨⟨_, t⟩, hx, hframe⟩ := Option.map_eq_some_iff.mp h
  exact ⟨_, t, eq_ok_of_finished? hx, rfl, hframe⟩

theorem eq_ok_of_yields {α : Type} {x : EStateM.Result Halt State α} {a : α} (h : (finished? x).map Prod.fst = some a) :
    x = .ok a (endState x) := by
  obtain ⟨⟨_, s⟩, hx, rfl⟩ := Option.map_eq_some_iff.mp h
  rw [eq_ok_of_finished? hx]
  rfl

def isNormal : EStateM.Result Halt State Flow → Bool
  | .ok .normal _ => true
  | _ => false

theorem eq_ok_of_isNormal {x : EStateM.Result Halt State Flow} (h : isNormal x = true) :
    x = .ok .normal (endState x) := by
  unfold isNormal at h
  split at h
  · rfl
  · cases h

theorem meets_addedIndex :
    ∃ s s' v, Meets 16 ⟨true, 0, 0⟩ dividingProgram (.expr addedIndex)
        ((Frame.empty.pushNamed .int none "n").openScope.pushNamed .int none "i").openScope s ∧
      evaluate (.of ⟨true, 0, 0⟩ 0) addedIndex s = .ok v s' := by
  let cx : Context := .of ⟨true, 0, 0⟩ 0
  let f := Frame.empty.pushNamed .int none "n"
  let g := f.openScope.pushNamed .int none "i"
  let rounds : Site := .rounds (some belowThree) (some (.step .unplaced "i" .up)) (.expr .unplaced addedIndex)
  let s₁ := endState (execute cx (.varDecl .unplaced .int "n" (some (.literal .unplaced (.int 0))))
    (Session.start ⟨true, 0, 0⟩).state)
  let s₂ := endState (execute cx (.varDecl .unplaced .int "i" (some (.literal .unplaced (.int 0))))
    { s₁ with env := s₁.env.push })
  let s₃ := endState (roundTest cx (some belowThree) s₂)
  let s₄ := endState (asBody false (execute cx (.expr .unplaced addedIndex)) s₃)
  let s₅ := endState (roundUpdate cx (some (.step .unplaced "i" .up)) s₄)
  let s₆ := endState (roundTest cx (some belowThree) s₅)
  have hloop : Meets 16 ⟨true, 0, 0⟩ dividingProgram (.stmts (dividingProgram.statements.drop 1)) f s₁ :=
    .nextStatement .program (moves_of_finished? (by decide +kernel))
      (eq_ok_of_isNormal (x := execute cx _ _) (by decide +kernel))
  have hfirst : Meets 16 ⟨true, 0, 0⟩ dividingProgram rounds g s₂ :=
    .forLoop (.statement hloop) (moves_of_finished? (by decide +kernel))
      (eq_ok_of_isNormal (x := execute cx _ _) (by decide +kernel))
  have htest : Moves (loopTest (some belowThree) (.numbered 1)) g () g := moves_of_finished? (by decide +kernel)
  have hround : Moves (lowerRound 16 (.expr .unplaced addedIndex) (.numbered 1) (.numbered 2) 0) g () g :=
    moves_of_finished? (by decide +kernel)
  have hupdate : Moves (loopUpdate (some (.step .unplaced "i" .up))) g () g :=
    moves_of_finished? (by decide +kernel)
  have hsecond : Meets 16 ⟨true, 0, 0⟩ dividingProgram rounds g s₅ :=
    .nextRound hfirst htest (eq_ok_of_yields (x := roundTest cx _ s₂) (by decide +kernel)) hround
      (eq_ok_of_isNormal (x := asBody false (execute cx _) s₃) (by decide +kernel)) rfl hupdate
      (eq_ok_of_yields (x := roundUpdate cx _ s₄) (by decide +kernel))
  have hyields : (finished? (evaluate cx addedIndex { s₆ with env := s₆.env.push })).isSome = true := by
    decide +kernel
  obtain ⟨v, s', hv⟩ := ok_of_isSome_finished? hyields
  exact ⟨_, s', v, .expr (.statement (.round hsecond htest
    (eq_ok_of_yields (x := roundTest cx _ s₅) (by decide +kernel)))), hv⟩

theorem sound_of_generate_dividingProgram :
    (∀ s ∈ Stmt.partsOfAll dividingProgram.statements, s.Regular) ∧
    ∃ file, generate .default dividingProgram = .ok file ∧
      (∀ fuel, ∀ e ∈ (Session.runAll ⟨true, 0, 0⟩ fuel dividingProgram.statements
        (Session.start ⟨true, 0, 0⟩).state).1, Dynamic e.kind) ∧
      ∃ f s v s', Meets 16 ⟨true, 0, 0⟩ dividingProgram (.expr addedIndex) f s ∧
        evaluate (.of ⟨true, 0, 0⟩ 0) addedIndex s = .ok v s' ∧ v.kind = SlotKind.int.kind := by
  have hregular : ∀ s ∈ Stmt.partsOfAll dividingProgram.statements, s.Regular := by decide +kernel
  have haccepted : (generate .default dividingProgram).isOk = true := by decide +kernel
  have habort : (⟨true, 0, 0⟩ : EvaluatorConfig).abortOnError = true := rfl
  refine ⟨hregular, ?_⟩
  cases h : generate .default dividingProgram with
  | error e =>
    rw [h] at haccepted
    cases haccepted
  | ok file =>
    obtain ⟨herrors, hkinds⟩ := sound_of_generate h hregular habort
    refine ⟨file, rfl, fun fuel => ?_, ?_⟩
    · obtain ⟨_, _, rfl, herrors⟩ := herrors fuel
      exact herrors
    · obtain ⟨s, s', v, hmeets, hrun⟩ := meets_addedIndex
      let t : Lowering.State := { Lowering.State.start true with
        frame := ((Frame.empty.pushNamed .int none "n").openScope.pushNamed .int none "i").openScope }
      have hlowered : (finished? (lowerExpr addedIndex t)).map Prod.fst = some .int := by decide +kernel
      obtain ⟨⟨_, t'⟩, hlower, rfl⟩ := Option.map_eq_some_iff.mp hlowered
      exact ⟨_, s, v, s', hmeets, hrun, hkinds addedIndex t t' s s' _ 0 v hmeets (eq_ok_of_finished? hlower) hrun⟩

end Arbor.Agreement
