import Arbor.Proofs.Agreement.NameSafety
import Arbor.Proofs.Agreement.Soundness

/-!
This module contains the agreement of the generator and the evaluator on names: wherever they meet in a program that is
accepted and well named, a name stands for the same to both, and no run fails because of what a name stands for.
-/

namespace Arbor.Agreement

open Lowering (Lower Frame Slot SlotKind ExprCode lowerExpr lowerAs lowerCondition lowerStmt loadVariable
  arrayElement popSlot pushValue printTop matchCases loopTest loopUpdate generate)
open Evaluation

/-! Sites -/

section Sites

variable {α : Type} {f f' : Frame} {s s' : State} {x : Run α} {a : α}

theorem Proceeds.holds {Q : α → State → Prop} (hx : Proceeds f x Q) (hs : SameNames f s)
    (h : x s = .ok a s') : Q a s' :=
  Triple.result hx hs h

structure Paired (f : Frame) (s : State) : Prop where
  nested : f.Nested
  names : SameNames f s

namespace Paired

theorem start (config : EvaluatorConfig) : Paired .empty (Session.start config).state :=
  ⟨.empty, .start config⟩

theorem push {kind : SlotKind} {len : Option Nat} (h : Paired f s) : Paired (f.push kind len) s :=
  ⟨h.nested.push, SameNames.push_iff.mpr h.names⟩

theorem openScope (h : Paired f s) : Paired f.openScope { s with env := s.env.push } :=
  ⟨h.nested.openScope, h.names.openScope⟩

theorem nested_inEach {base elem : SlotKind} {len : Option Nat} {name : String} (h : Paired f s) :
    (inEach f base len elem name).Nested :=
  (((h.nested.openScope.pushNamed _ _ _).pushNamed _ _ _).openScope).pushNamed _ _ _

theorem after (h : Paired f s) (hx : Steady f x) (hrun : x s = .ok a s') : Paired f s' :=
  ⟨h.nested, hx.proceeds.holds h.names hrun⟩

end Paired

def Unreserving (es : List Expr) : Prop :=
  ∀ e ∈ es, ∀ name ∈ e.names, Unreserved name

def Recognized (f : Frame) (s : State) : Site → Prop
  | .expr e => Paired f s ∧ Unreserving [e]
  | .items _ es | .args es => Paired f s ∧ Unreserving es
  | .stmt stmt => Paired f s ∧ EachPart Stmt.WellNamed [stmt]
  | .stmts body => Paired f s ∧ EachPart Stmt.WellNamed body
  | .rounds cond update body =>
    Paired f s ∧ Unreserving (cond.toList ++ update.toList) ∧ EachPart Stmt.WellNamed [body]
  | .values _ name elem body _ =>
    (∃ g base len, Paired g s ∧ f = inEach g base len (.scalar elem) name) ∧
    Declarable Unreserved name ∧ EachPart Stmt.WellNamed [body]
  | .cases _ _ cases => Paired f s ∧ Unreserving (cases.map SwitchCase.value)
  | .bodies bodies => Paired f s ∧ ∀ body ∈ bodies, EachPart Stmt.WellNamed body

end Sites

namespace Unreserving

variable {e e' : Expr} {es rest : List Expr}

theorem head (h : Unreserving (e :: rest)) : ∀ name ∈ e.names, Unreserved name :=
  h e List.mem_cons_self

theorem first (h : Unreserving (e :: rest)) : Unreserving [e] :=
  fun _ he => h _ (List.mem_singleton.mp he ▸ List.mem_cons_self)

theorem tail (h : Unreserving (e :: rest)) : Unreserving rest :=
  fun _ he => h _ (List.mem_cons_of_mem _ he)

theorem part (h : Unreserving [e]) (hsub : e'.names ⊆ e.names) : Unreserving [e'] := by
  intro x hx name hname
  obtain rfl := List.mem_singleton.mp hx
  exact h.head name (hsub hname)

theorem ofPart {s : Stmt} (h : EachPart Stmt.WellNamed [s]) : Unreserving s.exprs :=
  (eachPart_head h).exprs

theorem single (h : Unreserving es) (he : e ∈ es) : Unreserving [e] := by
  intro x hx
  obtain rfl := List.mem_singleton.mp hx
  exact h _ he

end Unreserving

/-! Expressions -/

namespace Paired

section Expressions

variable {cx : Context} {f f' : Frame} {s s' : State} {e : Expr} {kind target : SlotKind} {v : Value}

theorem evaluated (h : Paired f s) (hnames : Unreserving [e]) (hmoves : Moves (lowerExpr e) f kind f')
    (hrun : literal e.span (evaluate cx e) s = .ok v s') : Paired f' s' := by
  obtain ⟨len, c, n, n', hcode, rfl⟩ := exprCode_of_moves hmoves
  exact (h.after (steady_evaluate hcode hnames.head).literal hrun).push

theorem evaluatedAs (h : Paired f s) (hnames : Unreserving [e]) (hmoves : Moves (lowerAs e target) f () f')
    (hrun : literal e.span (evaluate cx e) s = .ok v s') : Paired f' s' := by
  obtain ⟨len, c, n, n', hcode, rfl⟩ := exprCode_of_moves_lowerAs hmoves
  exact (h.after (steady_evaluate hcode hnames.head).literal hrun).push

theorem condition {b : Bool} (h : Paired f s) (hnames : Unreserving [e])
    (hmoves : Moves (lowerCondition e) f () f')
    (hrun : Evaluation.condition e.span (evaluate cx e) s = .ok b s') : Paired f' s' := by
  obtain ⟨rfl, len, c, n, n', hcode⟩ := exprCode_of_moves_lowerCondition hmoves
  exact h.after (steady_evaluate hcode hnames.head).condition hrun

theorem loaded {span : Span} {name : String} (h : Paired f s)
    (hmoves : Moves (loadVariable span name) f kind f') : Paired f' s := by
  obtain ⟨t, t', ht, rfl, rfl⟩ := hmoves
  obtain ⟨offset, slot, hslot, rfl, rfl⟩ := Lowering.yields_loadVariable ht
  exact h.push

theorem otherwise {b : Bool} {t : Expr} {span : Span} (h : Paired f s) (hnames : Unreserving [e])
    (hmoves : Moves (do
      lowerCondition e
      let _ ← lowerExpr t
      let _ ← popSlot span) f () f')
    (hrun : Evaluation.condition e.span (evaluate cx e) s = .ok b s') : Paired f' s' := by
  obtain ⟨t₀, t₃, ht, rfl, rfl⟩ := hmoves
  simp only [Lowering.yields_bind] at ht
  obtain ⟨_, t₁, h₁, kind, t₂, h₂, _, _, h₃, h₄⟩ := ht
  obtain ⟨len, c, n, hcode, rfl⟩ := Lowering.exprCode_of_lowerCondition h₁
  obtain ⟨len', c', n', _, rfl⟩ := Lowering.writes_lowerExpr t _ _ _ h₂
  simp at h₃ h₄
  rw [h₄, h₃.2]
  exact h.after (steady_evaluate hcode hnames.head).condition hrun

theorem loadedElement {span : Span} {name : String} (h : Paired f s) (hnames : Unreserving [e])
    (hmoves : Moves (do
      let elem ← arrayElement span name
      lowerAs e .int
      pushValue .t0 (.scalar elem)) f () f')
    (hrun : literal e.span (evaluate cx e) s = .ok v s') : Paired f' s' := by
  obtain ⟨t₀, t₃, ht, rfl, rfl⟩ := hmoves
  simp only [Lowering.yields_bind] at ht
  obtain ⟨elem, t₁, h₁, _, t₂, h₂, h₃⟩ := ht
  obtain ⟨_, _, _, _, rfl⟩ := Lowering.yields_arrayElement h₁
  obtain ⟨len, c, n, hcode, rfl⟩ := Lowering.exprCode_of_lowerAs h₂
  simp at h₃
  rw [h₃]
  exact (h.after (steady_evaluate hcode hnames.head).literal hrun).push.push

theorem callee {callee : Expr} {fn : Embedded} (h : Paired f s)
    (hcallee : Lowering.embeddedCallee callee = .ok fn) (hrun : evaluate cx callee s = .ok v s') :
    Paired f s' := by
  obtain ⟨span, rfl⟩ := embeddedCallee_eq hcallee
  rw [evaluate, readVariable_eq (h.names.embedded _)] at hrun
  cases hrun
  exact h

theorem item {elem : Scalar} (h : Paired f s) (hnames : Unreserving [e])
    (hmoves : Moves (lowerAs e (.scalar elem)) f () f') (hrun : element cx elem 1 e s = .ok v s') :
    Paired f' s' := by
  obtain ⟨len, c, n, n', hcode, rfl⟩ := exprCode_of_moves_lowerAs hmoves
  rw [element_eq] at hrun
  exact (h.after (steady_convertedElement (steady_evaluate hcode hnames.head)) hrun).push

theorem printed {span : Span} (h : Paired f s) (hnames : Unreserving [e])
    (hmoves : Moves (do printTop span (← lowerExpr e)) f () f') (hrun : evaluate cx e s = .ok v s') :
    Paired f' s' := by
  obtain ⟨t₀, t₂, ht, rfl, rfl⟩ := hmoves
  rw [Lowering.yields_bind] at ht
  obtain ⟨kind, t₁, h₁, h₂⟩ := ht
  obtain ⟨len, c, n, hcode, rfl⟩ := Lowering.writes_lowerExpr e _ _ _ h₁
  rw [Lowering.shownCode_of_yields rfl h₂]
  exact h.after (steady_evaluate hcode hnames.head) hrun

end Expressions

/-! Statements -/

section Statements

variable {cx : Context} {f f₁ f₂ : Frame} {s s₁ s₂ : State} {limit : Nat} {body stmt : Stmt}
  {c update : Option Expr} {flow : Flow} {done next : Assembly.Label} {level : Int}

theorem executed (h : Paired f s) (hnamed : EachPart Stmt.WellNamed [stmt])
    (hmoves : Moves (lowerStmt limit stmt) f () f₁) (hrun : execute cx stmt s = .ok flow s₁) :
    Paired f₁ s₁ := by
  obtain ⟨j, n, d, c, n', d', hcode⟩ := stmtCode_of_moves h.nested hmoves
  have hruns : Proceeds f (execute cx stmt) fun _ t => SameNames f₁ t := StmtCode.follows cx hcode hnamed
  exact ⟨hcode.nested h.nested, hruns.holds h.names hrun⟩

theorem tested {b : Bool} (h : Paired f s) (hnames : Unreserving (c.toList ++ update.toList))
    (hmoves : Moves (loopTest c done) f () f₁) (hrun : roundTest cx c s = .ok b s₁) : Paired f₁ s₁ := by
  obtain ⟨rfl, n, code, n', hcode⟩ := testCode_of_moves hmoves
  exact h.after (steady_roundTest hcode fun e he => hnames e (by simp [Option.mem_def.mp he])) hrun

theorem round (h : Paired f s) (hnamed : EachPart Stmt.WellNamed [body])
    (hmoves : Moves (lowerRound limit body done next level) f () f₁)
    (hrun : asBody body.isBlock (execute cx body) s = .ok flow s₁) : Paired f₁ s₁ := by
  obtain ⟨rfl, j, n, d, code, n', d', hcode⟩ := scopeCode_of_moves h.nested hmoves
  exact ⟨h.nested, (proceeds_bodyOf hnamed (StmtCode.follows cx hcode)).holds h.names hrun⟩

theorem eachRound {base : SlotKind} {len : Option Nat} {elem : Scalar} {span : Span} {name : String}
    {v : Value} (h : Paired f s) (hname : Declarable Unreserved name) (hnamed : EachPart Stmt.WellNamed [body])
    (hmoves : Moves (lowerRound limit body done next level) (inEach f base len (.scalar elem) name) () f₁)
    (hrun : inScope (do
      declare span name (.scalar elem) v
      asBody body.isBlock (execute cx body)) s = .ok flow s₁) : Paired f s₁ := by
  obtain ⟨rfl, j, n, d, code, n', d', hcode⟩ := scopeCode_of_moves h.nested_inEach hmoves
  have hbody := proceeds_bodyOf hnamed (StmtCode.follows cx hcode)
  exact ⟨h.nested, (proceeds_round hname hbody).holds h.names hrun⟩

theorem updated (h : Paired f s) (hnames : Unreserving (c.toList ++ update.toList))
    (hmoves : Moves (loopUpdate update) f () f₁) (hrun : roundUpdate cx update s = .ok () s₁) :
    Paired f s₁ := by
  obtain ⟨n, code, n', hcode⟩ := updateCode_of_moves hmoves
  exact h.after (steady_roundUpdate hcode fun e he => hnames e (by simp [Option.mem_def.mp he])) hrun

theorem scope {body : List Stmt} (h : Paired f s) (hnamed : EachPart Stmt.WellNamed body)
    (hmoves : Moves (Lowering.inScope (Lowering.lowerStmts limit body)) f () f₁)
    (hrun : inScope (executeAll cx body) s = .ok flow s₁) : Paired f₁ s₁ := by
  obtain ⟨t, t', ht, rfl, rfl⟩ := hmoves
  obtain ⟨c, f', n, d, hcode, rfl⟩ := (Lowering.performs_lowerStmts body).inScope _ _ _ ht h.nested
  obtain rfl := hcode.frame_scope
  have hruns : Proceeds t.frame (inScope (executeAll cx body)) fun _ t' => SameNames t.frame t' :=
    StmtCode.follows cx hcode hnamed
  exact ⟨h.nested, hruns.holds h.names hrun⟩

theorem subject {e : Expr} {kind : SlotKind} {v : Value} (h : Paired f s) (hnames : Unreserving [e])
    (hmoves : Moves (do
      let kind ← lowerExpr e
      let _ ← popSlot e.span
      return kind) f kind f₁)
    (hrun : literal e.span (evaluate cx e) s = .ok v s₁) : Paired f₁ s₁ := by
  obtain ⟨t, t', ht, rfl, rfl⟩ := hmoves
  rw [Lowering.yields_bind] at ht
  obtain ⟨kind', t₁, h₁, h₂⟩ := ht
  obtain ⟨len, c, n, hcode, rfl⟩ := Lowering.writes_lowerExpr e _ _ _ h₁
  simp [and_assoc] at h₂
  rw [h₂.1]
  exact h.after (steady_evaluate hcode hnames.head).literal hrun

theorem compared {e : Expr} {kind : SlotKind} {v : Value} {span : Span} {label : Assembly.Label}
    (h : Paired f s) (hmoves : Moves (matchCases span kind [(e, label)]) (f.push kind none) () f₁)
    (hrun : literal e.span (evaluate cx e) s = .ok v s₁) : Paired f₁ s₁ := by
  obtain ⟨t, t', ht, hframe, rfl⟩ := hmoves
  obtain ⟨c, hcode, rfl⟩ := Lowering.casesCode_of_yields hframe ht
  obtain ⟨w, hw, _⟩ := evaluate_of_casesCode hcode _ List.mem_cons_self
  have hvalue : Steady f (evaluate cx e) := by
    rw [show evaluate cx e = pure w from hw]
    exact .pure
  exact h.after hvalue.literal hrun

theorem matched {e : Expr} {v : Value} {span : Span} {cases : List SwitchCase}
    {labels : List Assembly.Label} {cx' : Context} {position? : Option Nat} (h : Paired f s)
    (hnames : Unreserving [e]) (hlabels : labels.length = cases.length)
    (hmoves : Moves (do
      matchCases span (← lowerExpr e) ((cases.map SwitchCase.value).zip labels)) f () f₁)
    (hrun : literal e.span (evaluate cx e) s = .ok v s₁)
    (hmatch : firstMatch v equalForSwitch (caseValues cx' cases) s₁ = .ok position? s₂) :
    Paired f₁ s₂ := by
  obtain ⟨t, t', ht, rfl, rfl⟩ := hmoves
  rw [Lowering.yields_bind] at ht
  obtain ⟨kind, t₁, h₁, h₂⟩ := ht
  obtain ⟨len, c, n, hcode, rfl⟩ := Lowering.writes_lowerExpr e _ _ _ h₁
  obtain ⟨c', hcases, rfl⟩ := Lowering.casesCode_of_yields rfl h₂
  have hs₁ := h.after (steady_evaluate hcode hnames.head).literal hrun
  exact ⟨h.nested, (proceeds_cases hlabels hcases).holds hs₁.names hmatch⟩

end Statements

end Paired

/-! Meetings -/

theorem recognized_of_meets {limit : Nat} {config : EvaluatorConfig} {p : Program} {site : Site} {f : Frame}
    {s : State} (hnamed : EachPart Stmt.WellNamed p.statements) (h : Meets limit config p site f s) :
    Recognized f s site := by
  induction h with
  | program => exact ⟨.start config, hnamed⟩
  | statement _ ih =>
    obtain ⟨hpaired, hstmts⟩ := ih
    rw [eachPart_cons] at hstmts
    exact ⟨hpaired, eachPart_cons.mpr ⟨hstmts.1, eachPart_nil⟩⟩
  | nextStatement _ hmoves hrun ih =>
    obtain ⟨hpaired, hstmts⟩ := ih
    rw [eachPart_cons] at hstmts
    exact ⟨hpaired.executed (eachPart_cons.mpr ⟨hstmts.1, eachPart_nil⟩) hmoves hrun, hstmts.2⟩
  | left _ ih | choice _ ih | operand _ ih | inner _ ih | assigned _ ih | position _ ih | target _ ih
  | needle _ ih => exact ⟨ih.1, ih.2.part (by simp [Expr.names])⟩
  | right _ _ hmoves hrun ih =>
    exact ⟨ih.1.evaluated (ih.2.part (by simp [Expr.names])) hmoves hrun, ih.2.part (by simp [Expr.names])⟩
  | undecided _ _ hmoves hrun ih =>
    exact ⟨ih.1.condition (ih.2.part (by simp [Expr.names])) hmoves hrun, ih.2.part (by simp [Expr.names])⟩
  | combined _ _ hmoves ih => exact ⟨ih.1.loaded hmoves, ih.2.part (by simp [Expr.names])⟩
  | whenTrue _ hmoves hrun ih =>
    exact ⟨ih.1.condition (ih.2.part (by simp [Expr.names])) hmoves hrun, ih.2.part (by simp [Expr.names])⟩
  | whenFalse _ hmoves hrun ih =>
    exact ⟨ih.1.otherwise (ih.2.part (by simp [Expr.names])) hmoves hrun, ih.2.part (by simp [Expr.names])⟩
  | stored _ hmoves hrun ih =>
    exact ⟨ih.1.evaluatedAs (ih.2.part (by simp [Expr.names])) hmoves hrun, ih.2.part (by simp [Expr.names])⟩
  | storedCombined _ _ hmoves hrun ih =>
    exact ⟨ih.1.loadedElement (ih.2.part (by simp [Expr.names])) hmoves hrun,
      ih.2.part (by simp [Expr.names])⟩
  | argument _ hcallee hrun ih =>
    exact ⟨ih.1.callee hcallee hrun, ih.2.part (by simp [Expr.names, Expr.namesOfAll])⟩
  | initializer _ ih | length _ ih | expr _ ih | condition _ ih | subject _ ih =>
    exact ⟨ih.1, (Unreserving.ofPart ih.2).single List.mem_cons_self⟩
  | items _ _ ih | args _ ih => exact ⟨ih.1, .ofPart ih.2⟩
  | item _ ih | arg _ ih | caseValue _ ih => exact ⟨ih.1, ih.2.first⟩
  | nextItem _ hmoves hrun ih => exact ⟨ih.1.item ih.2.first hmoves hrun, ih.2.tail⟩
  | nextArg _ hmoves hrun ih => exact ⟨ih.1.printed ih.2.first hmoves hrun, ih.2.tail⟩
  | block _ ih => exact ⟨ih.1.openScope, eachPart_block ih.2⟩
  | thenBranch _ hmoves hrun ih =>
    have hnames := (Unreserving.ofPart ih.2).single List.mem_cons_self
    exact ⟨(ih.1.condition hnames hmoves hrun).openScope, eachPart_bodyOf (eachPart_whenTrue ih.2)⟩
  | elseBranch _ hmoves hrun ih =>
    have hnames := (Unreserving.ofPart ih.2).single List.mem_cons_self
    exact ⟨(ih.1.condition hnames hmoves hrun).openScope, eachPart_bodyOf (eachPart_whenFalse ih.2)⟩
  | whileLoop _ ih => exact ⟨ih.1, .ofPart ih.2, eachPart_while ih.2⟩
  | init _ ih => exact ⟨ih.1.openScope, (eachPart_for ih.2).1⟩
  | forLoop _ hmoves hrun ih =>
    obtain ⟨hinit, hbody⟩ := eachPart_for ih.2
    exact ⟨ih.1.openScope.executed hinit hmoves hrun, .ofPart ih.2, hbody⟩
  | forLoopOnly _ ih => exact ⟨ih.1.openScope, .ofPart ih.2, (eachPart_for ih.2).2⟩
  | test _ ih => exact ⟨ih.1, ih.2.1.single (by simp)⟩
  | round _ hmoves hrun ih => exact ⟨(ih.1.tested ih.2.1 hmoves hrun).openScope, eachPart_bodyOf ih.2.2⟩
  | update _ htest htested hround hrun _ ih =>
    exact ⟨(ih.1.tested ih.2.1 htest htested).round ih.2.2 hround hrun, ih.2.1.single (by simp)⟩
  | nextRound _ htest htested hround hrun _ hupdate hupdated ih =>
    have hpaired := ((ih.1.tested ih.2.1 htest htested).round ih.2.2 hround hrun).updated ih.2.1
      hupdate hupdated
    obtain ⟨rfl, _⟩ := testCode_of_moves htest
    obtain ⟨rfl, _⟩ := scopeCode_of_moves ih.1.nested hround
    exact ⟨hpaired, ih.2⟩
  | values _ hmoves hrun ih =>
    obtain ⟨hpaired, hstmt⟩ := ih
    obtain ⟨offset, slot, hslot, _, rfl⟩ := frame_of_moves_lowerElement hmoves
    have hhead := eachPart_head hstmt
    have hiterable := hhead.ownNames _ (.tail _ List.mem_cons_self)
    exact ⟨⟨_, _, _, hpaired.after (steady_readArray hiterable hslot) hrun, rfl⟩,
      wellNamed_declarable hhead List.mem_cons_self rfl, eachPart_forEach hstmt⟩
  | @value _ name elem _ _ _ _ _ s' _ hrun ih =>
    obtain ⟨⟨g, base, len, hpaired, rfl⟩, hname, hbody⟩ := ih
    have hs : SameNames (inEach g base len (.scalar elem) name) s' :=
      (proceeds_declareEach hname).result ⟨_, hpaired.names, rfl⟩ hrun
    exact ⟨.openScope ⟨hpaired.nested_inEach, hs⟩, eachPart_bodyOf hbody⟩
  | nextValue _ hmoves hrun _ ih =>
    obtain ⟨⟨g, base, len, hpaired, rfl⟩, hname, hbody⟩ := ih
    exact ⟨⟨g, base, len, hpaired.eachRound hname hbody hmoves hrun, rfl⟩, hname, hbody⟩
  | cases _ hmoves hrun ih =>
    have hnames := Unreserving.ofPart ih.2
    exact ⟨ih.1.subject hnames.first hmoves hrun, hnames.tail⟩
  | nextCase _ hmoves hrun _ ih => exact ⟨ih.1.compared hmoves hrun, ih.2.tail⟩
  | matched _ hlabels hmoves hrun hmatch ih =>
    obtain ⟨hpaired, hstmt⟩ := ih
    have hnames := (Unreserving.ofPart hstmt).first
    refine ⟨hpaired.matched hnames hlabels hmoves hrun hmatch, fun body hbody => ?_⟩
    exact eachPart_switch hstmt (mem_bodiesFrom hbody)
  | body _ ih => exact ⟨ih.1.openScope, ih.2 _ List.mem_cons_self⟩
  | nextBody _ hmoves hrun ih =>
    obtain ⟨hpaired, hbodies⟩ := ih
    rw [List.forall_mem_cons] at hbodies
    exact ⟨hpaired.scope hbodies.1 hmoves hrun, hbodies.2⟩

/-! Programs -/

/--
A program that is accepted and well named reports no errors about what a name stands for, and wherever the generator
and the evaluator meet at an expression or a statement, they take every name for the same.
-/
theorem resolvesAlike_of_generate {generator : GeneratorConfig} {config : EvaluatorConfig} {p : Program}
    {file : Assembly.File} (haccepted : generate generator p = .ok file)
    (hnamed : ∀ s ∈ Stmt.partsOfAll p.statements, s.WellNamed) (habort : config.abortOnError = true) :
    (∀ fuel, ∃ errors, ((Session.start config).run fuel p).diagnostics = errors.map EvalError.diagnostic ∧
      errors = (Session.runAll config fuel p.statements (Session.start config).state).1 ∧
      ∀ e ∈ errors, e.kind.misnamed? = none) ∧
    (∀ (e : Expr) (f : Frame) (s : State), Meets generator.unrollLimit config p (.expr e) f s →
      ResolvesAlike f s) ∧
    ∀ (stmt : Stmt) (f : Frame) (s : State), Meets generator.unrollLimit config p (.stmt stmt) f s →
      ResolvesAlike f s := by
  refine ⟨fun fuel => ⟨_, rfl, rfl, ?_⟩, fun e f s hmeets => ?_, fun stmt f s hmeets => ?_⟩
  · obtain ⟨c, f, n, d, hcode, _⟩ := Lowering.stmtCode_of_generate haccepted
    exact misnamed?_of_runAll habort hnamed (.start config) hcode
  · exact (recognized_of_meets hnamed hmeets).1.names.resolvesAlike
  · exact (recognized_of_meets hnamed hmeets).1.names.resolvesAlike

def shadowingProgram : Program where
  statements := [
    .varDecl .unplaced .int "#count" (some (.literal .unplaced (.int 0))),
    .arrayDecl .unplaced .int 1 "values" (.values [.literal .unplaced (.int 4), .literal .unplaced (.int 2)]),
    .forEach .unplaced .var "values" "values" (.block .unplaced [
      .expr .unplaced (.assign .unplaced "#count" .add (.var .unplaced "values")),
      .varDecl .unplaced .string "#count" (some (.call .unplaced (.var .unplaced "toString")
        [.var .unplaced "#count"])),
      .print .unplaced [.var .unplaced "#count"]])]

theorem resolvesAlike_shadowingProgram :
    (∀ s ∈ Stmt.partsOfAll shadowingProgram.statements, s.WellNamed) ∧
    ∃ file, generate .default shadowingProgram = .ok file ∧
      (∀ fuel, ∀ e ∈ (Session.runAll ⟨true, 0, 0⟩ fuel shadowingProgram.statements
        (Session.start ⟨true, 0, 0⟩).state).1, e.kind.misnamed? = none) ∧
      ResolvesAlike .empty (Session.start ⟨true, 0, 0⟩).state := by
  have hnamed : ∀ s ∈ Stmt.partsOfAll shadowingProgram.statements, s.WellNamed := by decide +kernel
  have haccepted : (generate .default shadowingProgram).isOk = true := by decide +kernel
  have habort : (⟨true, 0, 0⟩ : EvaluatorConfig).abortOnError = true := rfl
  refine ⟨hnamed, ?_⟩
  cases h : generate .default shadowingProgram with
  | error e =>
    rw [h] at haccepted
    cases haccepted
  | ok file =>
    obtain ⟨herrors, _, halike⟩ := resolvesAlike_of_generate h hnamed habort
    refine ⟨file, rfl, fun fuel => ?_, halike _ _ _ (.statement .program)⟩
    obtain ⟨_, _, rfl, herrors⟩ := herrors fuel
    exact herrors

/--
Accepted programs that are not well named: one declares an embedded function anew, one calls what it declared in the
place of an embedded function, and two mention a slot that a loop over an array keeps for itself.
-/
def misnamedPrograms : List Program := [
  ⟨[.varDecl .unplaced .int "toString" (some (.literal .unplaced (.int 1)))]⟩,
  ⟨[.block .unplaced [
    .varDecl .unplaced .int "toString" (some (.literal .unplaced (.int 5))),
    .print .unplaced [.call .unplaced (.var .unplaced "toString") [.literal .unplaced (.int 1)]]]]⟩,
  ⟨[.arrayDecl .unplaced .int 1 "a" (.values [.literal .unplaced (.int 7)]),
    .forEach .unplaced .int "x" "a" (.print .unplaced [.var .unplaced "#idx"])]⟩,
  ⟨[.arrayDecl .unplaced .int 1 "a" (.values [.literal .unplaced (.int 7)]),
    .forEach .unplaced .int "x" "a" (.print .unplaced [.length .unplaced "#base"])]⟩]

/--
Such programs fail because of what a name stands for.
-/
theorem misnamed?_misnamedPrograms :
    (∀ p ∈ misnamedPrograms, (generate .default p).isOk = true) ∧
    misnamedPrograms.map (fun p =>
      (Session.runAll ⟨true, 256, 16777216⟩ 0 p.statements
        (Session.start ⟨true, 256, 16777216⟩).state).1.map EvalError.kind) =
      [[.alreadyDeclared "toString"], [.notCallable "toString"], [.undeclared "#idx"],
        [.undeclared "#base"]] := by
  refine ⟨?_, ?_⟩ <;> decide +kernel

end Arbor.Agreement
