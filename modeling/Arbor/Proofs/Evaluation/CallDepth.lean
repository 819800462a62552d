import Arbor.Proofs.Evaluation.Balance
import Arbor.Proofs.Evaluation.Extension
import Arbor.Proofs.Evaluation.Termination

/-!
This module contains what the bounds of the evaluator do to a session. Calls never nest deeper than the limit, and the
limit shows in nothing but its own error; fuel shows in nothing but that it runs out.
-/

namespace Arbor

/-! The diagnostic of a stack overflow -/

theorem head?_toList_append {s t : String} {c : Char} (h : s.toList.head? = some c) :
    (s ++ t).toList.head? = some c := by
  rw [String.toList_append, List.head?_append, h]
  rfl

namespace EvalErrorKind

def initial : EvalErrorKind → Char
  | typeMismatch .. => 't'
  | undeclared .. => 'v'
  | alreadyDeclared .. | notCallable .. | notAnArray .. => '\''
  | arityMismatch .. | missingReturn .. => 'f'
  | arrayTypeMismatch .. | arrayTooLarge .. => 'a'
  | indexOutOfBounds .. | invalidOperands .. | invalidOperand .. | invalidNumber ..
  | integerOutOfRange .. => 'i'
  | notLiteral .. => 'e'
  | divisionByZero => 'd'
  | breakOutsideLoop => 'b'
  | continueOutsideLoop => 'c'
  | returnOutsideFunction => 'r'
  | stackOverflow .. => 'm'

theorem head?_message (kind : EvalErrorKind) : kind.message.toList.head? = some kind.initial := by
  cases kind with
  | divisionByZero | breakOutsideLoop | continueOutsideLoop | returnOutsideFunction => rfl
  | notLiteral => exact head?_toList_append rfl
  | typeMismatch | arrayTypeMismatch | arrayTooLarge | invalidOperand =>
    exact head?_toList_append (head?_toList_append (head?_toList_append rfl))
  | indexOutOfBounds => exact head?_toList_append (head?_toList_append (head?_toList_append (head?_toList_append rfl)))
  | arityMismatch | invalidOperands =>
    exact head?_toList_append (head?_toList_append
      (head?_toList_append (head?_toList_append (head?_toList_append rfl))))
  | _ => exact head?_toList_append (head?_toList_append rfl)

theorem eq_stackOverflow_of_message {kind : EvalErrorKind} {limit : Nat}
    (h : kind.message = (stackOverflow limit).message) : ∃ limit, kind = .stackOverflow limit := by
  have hinitial : kind.initial = 'm' := by
    rw [← Option.some_inj, ← head?_message, h, head?_message]
    rfl
  cases kind with
  | stackOverflow limit => exact ⟨limit, rfl⟩
  | _ => simp [initial] at hinitial

end EvalErrorKind

def Diagnostic.IsStackOverflow (d : Diagnostic) : Prop :=
  ∃ limit span, d = EvalError.diagnostic ⟨.stackOverflow limit, span⟩

/--
No other error has such a diagnostic.
-/
theorem EvalError.isStackOverflow_diagnostic {e : EvalError} :
    e.diagnostic.IsStackOverflow ↔ ∃ limit, e.kind = .stackOverflow limit := by
  constructor
  · rintro ⟨limit, span, h⟩
    exact EvalErrorKind.eq_stackOverflow_of_message (congrArg Diagnostic.message h)
  · rintro ⟨limit, hkind⟩
    exact ⟨limit, e.span, by rw [diagnostic, diagnostic, hkind]⟩

namespace Evaluation

/-! Wider bounds -/

section Bounds

variable {gaveUp : Halt → Prop} {config config' : EvaluatorConfig}

/--
Settings that differ in the limit on calls, which is wider if reaching it counts as giving up.
-/
structure Widened (gaveUp : Halt → Prop) (config config' : EvaluatorConfig) : Prop where
  maxArrayLength : config'.maxArrayLength = config.maxArrayLength
  maxCallDepth : config'.maxCallDepth = config.maxCallDepth ∨
    config.maxCallDepth ≤ config'.maxCallDepth ∧
      ∀ span, gaveUp (.error ⟨.stackOverflow config.maxCallDepth, span⟩)

theorem Widened.guard (h : Widened gaveUp config config') (span : Span) (depth : Nat) {x y : Run Value}
    (hx : Extends gaveUp x y) :
    Extends gaveUp
      (do
        if config.maxCallDepth ≤ depth then raise span (.stackOverflow config.maxCallDepth)
        x)
      (do
        if config'.maxCallDepth ≤ depth then raise span (.stackOverflow config'.maxCallDepth)
        y) := by
  rcases h.maxCallDepth with hsame | ⟨hle, hgave⟩
  · rw [hsame]
    split
    · exact .refl _
    · exact hx
  · by_cases hopen : config.maxCallDepth ≤ depth
    · simp only [hopen, if_true]
      exact .throw (hgave span) _
    · have hopen' : ¬ config'.maxCallDepth ≤ depth := by omega
      simpa only [hopen, hopen', if_false] using hx

theorem Widened.invoke (h : Widened gaveUp config config') (hsurfaces : Surfaces gaveUp) {fuel fuel' : Nat}
    (hfuel : MoreFuel gaveUp fuel fuel') (span : Span) (f : Closure)
    (args : List Value) :
    Extends gaveUp (Evaluation.invoke config fuel span f args)
      (Evaluation.invoke config' fuel' span f args) := by
  induction fuel generalizing fuel' span f args with
  | zero =>
    rcases hfuel with rfl | ⟨-, hgave⟩
    · exact .refl _
    · exact .throw hgave _
  | succ fuel ih =>
    obtain ⟨fuel', rfl, hless⟩ := hfuel.of_succ
    have hcx : Context.Extended gaveUp ⟨config.maxArrayLength, fuel, Evaluation.invoke config fuel⟩
        ⟨config'.maxArrayLength, fuel', Evaluation.invoke config' fuel'⟩ :=
      ⟨h.maxArrayLength, hless, ih hless⟩
    apply (Extends.refl _).bind
    intro s
    apply h.guard
    apply (Extends.refl _).bind
    intro params
    apply Extends.inCall
    apply (Extends.refl _).bind
    intro _
    exact (hcx.executeAll hsurfaces f.body).bind fun _ => .refl _

theorem Widened.context (h : Widened gaveUp config config') (hsurfaces : Surfaces gaveUp) {fuel fuel' : Nat}
    (hfuel : MoreFuel gaveUp fuel fuel') :
    Context.Extended gaveUp (.of config fuel) (.of config' fuel') :=
  ⟨h.maxArrayLength, hfuel, h.invoke hsurfaces hfuel⟩

/--
After an error a run goes on with the rest, unless it stops there. It does the same as another one if the rest does, as
far as nothing gives up.
-/
theorem afterError_congr {stops : Bool} {e : EvalError} {s : State} {rest rest' : List EvalError × State × Bool}
    (hrest : (∀ e ∈ rest.1, ¬ gaveUp (.error e)) → (gaveUp .outOfFuel → rest.2.2 = true) → rest' = rest)
    (hnone : ∀ e' ∈ (if stops then ([e], s, true) else (e :: rest.1, rest.2)).1, ¬ gaveUp (.error e'))
    (hfinished : gaveUp .outOfFuel →
      (if stops then ([e], s, true) else (e :: rest.1, rest.2)).2.2 = true) :
    (if stops then ([e], s, true) else (e :: rest'.1, rest'.2)) =
      if stops then ([e], s, true) else (e :: rest.1, rest.2) := by
  cases stops with
  | true => rfl
  | false =>
    simp only [Bool.false_eq_true, if_false, List.forall_mem_cons] at hnone hfinished
    rw [hrest hnone.2 hfinished]

/--
The statements of a program do the same under wider bounds unless the narrower ones make one give up, and then that is
what the narrower run reports or does not finish for.
-/
theorem Widened.runAll (h : Widened gaveUp config config') (hsurfaces : Surfaces gaveUp) {fuel fuel' : Nat}
    (hfuel : MoreFuel gaveUp fuel fuel') (habort : config'.abortOnError = config.abortOnError)
    {stmts : List Stmt} {s : State}
    (hnone : ∀ e ∈ (Session.runAll config fuel stmts s).1, ¬ gaveUp (.error e))
    (hfinished : gaveUp .outOfFuel → (Session.runAll config fuel stmts s).2.2 = true) :
    Session.runAll config' fuel' stmts s = Session.runAll config fuel stmts s := by
  induction stmts generalizing s with
  | nil => rfl
  | cons stmt rest ih =>
    have hcx := h.context hsurfaces hfuel
    unfold Session.runAll at hnone hfinished ⊢
    rw [habort]
    rcases hcx.execute hsurfaces stmt s with hsame | ⟨halt, s', hhalt, hgave⟩
    · rw [hsame]
      cases hrun : execute (Context.of config fuel) stmt s with
      | ok flow s' =>
        simp only [hrun] at hnone hfinished ⊢
        cases hstray : Session.strayError? flow with
        | none =>
          simp only [hstray] at hnone hfinished ⊢
          exact ih hnone hfinished
        | some e =>
          simp only [hstray] at hnone hfinished ⊢
          exact afterError_congr ih hnone hfinished
      | error halt s' =>
        cases halt with
        | outOfFuel => rfl
        | error e =>
          simp only [hrun] at hnone hfinished ⊢
          exact afterError_congr ih hnone hfinished
    · exfalso
      rw [hhalt] at hnone hfinished
      cases halt with
      | outOfFuel => exact Bool.false_ne_true (hfinished hgave)
      | error e =>
        apply hnone e _ hgave
        dsimp only
        split <;> exact List.mem_cons_self

end Bounds

/-! Sessions -/

/--
What a run is seen to do: its diagnostics, the state it leaves, and whether it came to its end.
-/
def Report.outcome (report : Report) : List Diagnostic × State × Bool :=
  (report.diagnostics, report.session.state, report.finished)

theorem Widened.reports {gaveUp : Halt → Prop} {config config' : EvaluatorConfig}
    (h : Widened gaveUp config config') (hsurfaces : Surfaces gaveUp) {fuel fuel' : Nat}
    (hfuel : MoreFuel gaveUp fuel fuel') (habort : config'.abortOnError = config.abortOnError)
    {programs : List Program} {s : State}
    (hnone : ∀ report ∈ Session.reports ⟨config, s⟩ fuel programs,
      ∀ e : EvalError, e.diagnostic ∈ report.diagnostics → ¬ gaveUp (.error e))
    (hfinished : gaveUp .outOfFuel →
      ∀ report ∈ Session.reports ⟨config, s⟩ fuel programs, report.finished = true) :
    (Session.reports ⟨config', s⟩ fuel' programs).map Report.outcome =
      (Session.reports ⟨config, s⟩ fuel programs).map Report.outcome := by
  induction programs generalizing s with
  | nil => rfl
  | cons program rest ih =>
    simp only [Session.reports, List.forall_mem_cons] at hnone hfinished
    have hrun : Session.runAll config' fuel' program.statements s =
        Session.runAll config fuel program.statements s := by
      apply h.runAll hsurfaces hfuel habort
      · exact fun e he => hnone.1 e (List.mem_map_of_mem he)
      · exact fun hgave => (hfinished hgave).1
    have hrest := ih hnone.2 fun hgave => (hfinished hgave).2
    simp only [Session.reports, Session.run, List.map_cons, List.cons.injEq, Report.outcome, hrun, true_and]
    exact hrest

/--
A session of programs that all come to their end does the same with more fuel.
-/
theorem Session.reports_of_finished {session : Session} {fuel fuel' : Nat} (hfuel : fuel ≤ fuel')
    {programs : List Program}
    (hfinished : ∀ report ∈ session.reports fuel programs, report.finished = true) :
    (session.reports fuel' programs).map Report.outcome =
      (session.reports fuel programs).map Report.outcome := by
  have hwidened : Widened (· = .outOfFuel) session.config session.config := ⟨rfl, .inl rfl⟩
  apply hwidened.reports _ (.inr ⟨hfuel, rfl⟩) rfl
  · rintro report - e - ⟨⟩
  · exact fun _ => hfinished
  · rintro e ⟨⟩

/-! The depth of calls -/

theorem Frames.callDepth_of_ok {declares : Bool} {α : Type} {x : Run α} (hx : Frames declares α x)
    {s s' : State} {a : α} (h : x s = .ok a s') : s'.callDepth = s.callDepth := by
  have hframed := hx s
  rw [h] at hframed
  exact hframed.callDepth

@[simp]
theorem State.callDepth_enterBody (s : State) (body : Stmt) : (s.enterBody body).callDepth = s.callDepth := by
  unfold State.enterBody
  split <;> rfl

section Depth

variable {config : EvaluatorConfig} {fuel : Nat} {s s' : State}

theorem frames_invoke (config : EvaluatorConfig) (fuel : Nat) (span : Span) (f : Closure) (args : List Value) :
    Frames false Value ((Context.of config fuel).invoke span f args) :=
  closed_frames.invoke config fuel span f args

theorem callDepth_evaluate {e : Expr} {v : Value} (h : evaluate (.of config fuel) e s = .ok v s') :
    s'.callDepth = s.callDepth :=
  (closed_frames.evaluate_of config fuel e).callDepth_of_ok h

theorem callDepth_literal {span : Span} {e : Expr} {v : Value}
    (h : literal span (evaluate (.of config fuel) e) s = .ok v s') : s'.callDepth = s.callDepth :=
  (closed_frames.literal (closed_frames.evaluate_of config fuel e)).callDepth_of_ok h

theorem callDepth_condition {span : Span} {e : Expr} {b : Bool}
    (h : condition span (evaluate (.of config fuel) e) s = .ok b s') : s'.callDepth = s.callDepth :=
  (closed_frames.condition (closed_frames.evaluate_of config fuel e)).callDepth_of_ok h

theorem callDepth_evaluateAll {check : Span → Run Value → Run Value}
    (hcheck : ∀ span x, Frames false Value x → Frames false Value (check span x)) {es : List Expr}
    {vs : List Value} (h : evaluateAll (.of config fuel) check es s = .ok vs s') :
    s'.callDepth = s.callDepth :=
  (closed_frames.evaluateAll (frames_invoke config fuel) hcheck es).callDepth_of_ok h

theorem callDepth_elements {sc : Scalar} {dims : Nat} {es : List Expr} {vs : List Value}
    (h : elements (.of config fuel) sc dims es s = .ok vs s') : s'.callDepth = s.callDepth :=
  (closed_frames.elements (frames_invoke config fuel) sc dims es).callDepth_of_ok h

theorem callDepth_execute {stmt : Stmt} {flow : Flow}
    (h : execute (.of config fuel) stmt s = .ok flow s') : s'.callDepth = s.callDepth :=
  (closed_frames.execute_of config fuel stmt).callDepth_of_ok h

theorem callDepth_body {stmt : Stmt} {flow : Flow}
    (h : asBody stmt.isBlock (execute (.of config fuel) stmt) s = .ok flow s') :
    s'.callDepth = s.callDepth :=
  (closed_frames.executes (frames_invoke config fuel) stmt).2.callDepth_of_ok h

theorem callDepth_roundTest {c : Option Expr} {b : Bool}
    (h : roundTest (.of config fuel) c s = .ok b s') : s'.callDepth = s.callDepth :=
  (closed_frames.roundTest (frames_invoke config fuel) c).callDepth_of_ok h

/--
Only the body of a function runs one call deeper, and a call is refused at the limit.
-/
theorem Starts.callDepth_le {task : Task} (h : Starts config task s) :
    s.callDepth ≤ config.maxCallDepth := by
  have hliteral (span : Span) (x : Run Value) (hx : Frames false Value x) :
      Frames false Value (literal span x) := closed_frames.literal hx
  induction h with
  | program _ hsession =>
    rw [(hsession.framed).callDepth]
    exact Nat.zero_le _
  | nextStatement _ hrun _ ih => rwa [callDepth_execute hrun]
  | @afterError stmt _ s _ fuel _ _ hrun _ ih =>
    have hframed := closed_frames.execute_of config fuel stmt s
    rw [hrun] at hframed
    exact Nat.le_trans (Nat.le_of_eq hframed.callDepth) ih
  | right _ _ hl ih => rwa [callDepth_literal hl]
  | undecided _ _ hl _ ih => rwa [callDepth_condition hl]
  | chosen _ hc ih => rwa [callDepth_condition hc]
  | item _ hbefore ih => rwa [callDepth_evaluateAll hliteral hbefore]
  | stored _ hi _ ih => rwa [callDepth_literal hi]
  | argument _ hcallee _ hbefore ih => rwa [callDepth_evaluateAll hliteral hbefore, callDepth_evaluate hcallee]
  | called _ _ _ _ hopen _ hdeclare =>
    rw [(closed_frames.declareAll _).callDepth_of_ok hdeclare]
    exact hopen
  | sublist _ hbefore _ ih => rwa [callDepth_elements hbefore]
  | element _ hbefore _ ih => rwa [callDepth_elements hbefore]
  | printed _ hbefore ih => rwa [callDepth_evaluateAll (fun _ _ hx => hx) hbefore]
  | next _ hrun ih => rwa [callDepth_execute hrun]
  | branch _ hc _ ih => rwa [State.callDepth_enterBody, callDepth_condition hc]
  | forLoop _ hinit ih => rwa [callDepth_execute hinit]
  | roundBody _ htest ih => rwa [State.callDepth_enterBody, callDepth_roundTest htest]
  | roundUpdate _ htest hbody _ ih => rwa [callDepth_body hbody, callDepth_roundTest htest]
  | nextRound _ htest hbody _ hupdate ih =>
    rwa [(closed_frames.roundUpdate (frames_invoke config _) _).callDepth_of_ok hupdate,
      callDepth_body hbody, callDepth_roundTest htest]
  | forEach _ hread _ ih => rwa [closed_frames.readArray.callDepth_of_ok hread]
  | value _ hdeclare ih =>
    rw [State.callDepth_enterBody, (closed_frames.declare _ _ _ _).callDepth_of_ok hdeclare]
    exact ih
  | @nextValue span name elem body v _ _ _ fuel _ _ hrun _ ih =>
    have hbody := (closed_frames.executes (frames_invoke config fuel) body).2
    have hround := closed_frames.inScope (closed_frames.andThen (closed_frames.declare span name elem v)
      fun _ => closed_frames.statement hbody)
    rwa [hround.callDepth_of_ok hrun]
  | switch _ hv ih => rwa [callDepth_literal hv]
  | nextCase _ hv _ ih => rwa [callDepth_literal hv]
  | @matched _ _ cases _ _ _ _ _ fuel _ _ _ hv hmatch ih =>
    have hcases := closed_frames.caseValues (frames_invoke config fuel) cases
    rwa [(closed_frames.firstMatch (fun _ _ _ => closed_frames.equalForSwitch) hcases).callDepth_of_ok hmatch,
      callDepth_literal hv]
  | @nextBody body _ _ _ fuel _ hrun ih =>
    have hbody := closed_frames.executeAll (frames_invoke config fuel) body
    rwa [(closed_frames.inScope hbody).callDepth_of_ok hrun]
  | _ => assumption

theorem Moment.callDepth_le (h : Moment config s) : s.callDepth ≤ config.maxCallDepth := by
  cases h with
  | start h => exact h.callDepth_le
  | evaluated fuel h =>
    rw [(closed_frames.evaluate_of config fuel _ _).callDepth]
    exact h.callDepth_le
  | executed fuel h =>
    rw [(closed_frames.execute_of config fuel _ _).callDepth]
    exact h.callDepth_le

end Depth

/--
The limit on calls shows in nothing but its own error: a session that does not run into it does the same under every
wider limit. Calls never nest deeper than it.
-/
theorem Session.reports_of_not_isStackOverflow (config : EvaluatorConfig) :
    (∀ (limit fuel : Nat) (programs : List Program), config.maxCallDepth ≤ limit →
      (∀ report ∈ (start config).reports fuel programs, ∀ d ∈ report.diagnostics, ¬ d.IsStackOverflow) →
      ((start { config with maxCallDepth := limit }).reports fuel programs).map Report.outcome =
        ((start config).reports fuel programs).map Report.outcome) ∧
    ∀ s : State, Moment config s → s.callDepth ≤ config.maxCallDepth := by
  refine ⟨fun limit fuel programs hle hnone => ?_, fun s h => h.callDepth_le⟩
  have hwidened : Widened (fun h => ∃ span, h = .error ⟨.stackOverflow config.maxCallDepth, span⟩)
      config { config with maxCallDepth := limit } :=
    ⟨rfl, .inr ⟨hle, fun span => ⟨span, rfl⟩⟩⟩
  apply hwidened.reports _ (.inl rfl) rfl
  · rintro report hreport e he ⟨span, heq⟩
    apply hnone report hreport _ he
    cases heq
    exact EvalError.isStackOverflow_diagnostic.mpr ⟨config.maxCallDepth, rfl⟩
  · rintro ⟨span, hfuel⟩
    cases hfuel
  · rintro e ⟨span, heq⟩
    cases heq
    rfl

def descendingProgram : Program where
  statements := [
    .funcDecl .unplaced .void "f" [⟨.int, 0, "n"⟩] [
      .conditional .unplaced
        (.binary .unplaced .eq (.var .unplaced "n") (.literal .unplaced (.int 0)))
        (.print .unplaced [.literal .unplaced (.string "down")])
        (some (.expr .unplaced (.call .unplaced (.var .unplaced "f")
          [.binary .unplaced .sub (.var .unplaced "n") (.literal .unplaced (.int 1))])))],
    .expr .unplaced (.call .unplaced (.var .unplaced "f") [.literal .unplaced (.int 2)])]

theorem Session.reports_descendingProgram :
    let config : EvaluatorConfig := ⟨false, 3, 10⟩
    ((start { config with maxCallDepth := 256 }).reports 4 [descendingProgram]).map Report.outcome =
        ((start config).reports 4 [descendingProgram]).map Report.outcome ∧
      ((start config).reports 4 [descendingProgram]).map (·.session.state.lines) = [#["down"]] ∧
      (start config).state.callDepth ≤ 3 := by
  refine ⟨?_, by decide +kernel, ?_⟩
  · apply (reports_of_not_isStackOverflow _).1 256 4 [descendingProgram] (by decide)
    have hquiet : ∀ report ∈ (start ⟨false, 3, 10⟩).reports 4 [descendingProgram],
        report.diagnostics = [] := by decide +kernel
    intro report hreport d hd
    rw [hquiet report hreport] at hd
    cases hd
  · exact (reports_of_not_isStackOverflow ⟨false, 3, 10⟩).2 _ (.start (.program ⟨[]⟩ .start))

end Evaluation

end Arbor
