import Arbor.Proofs.Evaluation.Effects

/-!
This module contains what it means to stop at the first error: the run of a program is cut short after the statement
that failed, and up to there it is the run that goes on.
-/

namespace Arbor.Evaluation

/-! Lines -/

/--
What was printed before a run is still there after it, however it ends.
-/
def Prints (α : Type) (x : Run α) : Prop :=
  ∀ s : State, s.lines.toList <+: (endState (x s)).lines.toList

section Runs

variable {α β : Type}

theorem Prints.bind {x : Run α} {f : α → Run β} (hx : Prints α x) (hf : ∀ a, Prints β (f a)) :
    Prints β (x >>= f) := by
  intro s
  have hx := hx s
  change s.lines.toList <+: (endState (EStateM.bind x f s)).lines.toList
  unfold EStateM.bind
  cases h : x s with
  | ok a s' =>
    rw [h] at hx
    exact hx.trans (hf a s')
  | error e s' =>
    rw [h] at hx
    exact hx

theorem prints_liftAt {span : Span} (x : Except EvalErrorKind α) : Prints α (liftAt span x) := by
  intro s
  cases x <;> exact List.prefix_rfl

theorem prints_environment : Prints Environment environment :=
  fun _ => List.prefix_rfl

theorem prints_setEnvironment (env : Environment) : Prints Unit (setEnvironment env) :=
  fun _ => List.prefix_rfl

theorem prints_update {span : Span} (f : Environment → Except EvalErrorKind Environment) :
    Prints Unit (do setEnvironment (← liftAt span (f (← environment)))) := by
  apply prints_environment.bind
  intro env
  exact (prints_liftAt _).bind prints_setEnvironment

theorem prints_inScope {x : Run α} (hx : Prints α x) : Prints α (inScope x) := by
  intro s
  have hx := hx { s with env := s.env.push }
  unfold inScope
  cases h : x { s with env := s.env.push } with
  | ok a s' | error e s' =>
    rw [h] at hx
    exact hx

theorem prints_inCall {scope : Nat} {x : Run α} (hx : Prints α x) : Prints α (inCall scope x) := by
  intro s
  have hx := hx { s with env := s.env.enter scope, callDepth := s.callDepth + 1 }
  unfold inCall
  dsimp only
  cases h : x { s with env := s.env.enter scope, callDepth := s.callDepth + 1 } with
  | ok a s' | error e s' =>
    rw [h] at hx
    exact hx

theorem prints_checkArray {x : Run Value} (hx : Prints Value x) : Prints _ (checkArray x) := by
  intro s
  have hx := hx s
  unfold checkArray
  cases h : x s with
  | ok v s' =>
    rw [h] at hx
    exact hx
  | error e s' =>
    rw [h] at hx
    cases e with
    | outOfFuel => exact hx
    | error e =>
      dsimp only
      split <;> exact hx

theorem prints_printLine (values : List Value) : Prints Unit (printLine values) := by
  intro s
  change s.lines.toList <+: (s.lines.push _).toList
  rw [Array.toList_push]
  exact List.prefix_append _ _

theorem closed_prints : Closed Prints Prints where
  pure _ _ := List.prefix_rfl
  throw _ _ := List.prefix_rfl
  bind := Prints.bind
  get _ := List.prefix_rfl
  writeVariable _ name v := prints_update fun env => env.set name v
  checkArray := prints_checkArray
  inScope := prints_inScope
  inCall := prints_inCall
  statement hx := hx
  andThen := Prints.bind
  declare _ name kind v := prints_update fun env => env.declare name kind v
  capture := prints_environment.bind fun _ => prints_setEnvironment _
  printLine := prints_printLine

end Runs

/-! Programs -/

/--
A call reads no setting but the limits on calls and on arrays.
-/
theorem invoke_congr {config config' : EvaluatorConfig} (hcalls : config'.maxCallDepth = config.maxCallDepth)
    (harrays : config'.maxArrayLength = config.maxArrayLength) (fuel : Nat) :
    invoke config' fuel = invoke config fuel := by
  induction fuel with
  | zero => rfl
  | succ fuel ih =>
    funext span f args
    rw [invoke, invoke, ih, hcalls, harrays]

theorem Context.of_congr {config config' : EvaluatorConfig}
    (hcalls : config'.maxCallDepth = config.maxCallDepth)
    (harrays : config'.maxArrayLength = config.maxArrayLength) (fuel : Nat) :
    Context.of config' fuel = Context.of config fuel := by
  rw [Context.of, Context.of, harrays, invoke_congr hcalls harrays]

namespace Session

theorem lines_runAll (config : EvaluatorConfig) (fuel : Nat) (stmts : List Stmt) (s : State) :
    s.lines.toList <+: (runAll config fuel stmts s).2.1.lines.toList :=
  runAll_relates (R := fun s s' => s.lines.toList <+: s'.lines.toList) (fun _ => List.prefix_rfl)
    List.IsPrefix.trans (closed_prints.execute_of config fuel) stmts s

/--
What the statements of a program came to when they stopped at the first error, against what they came to when they
went on.
-/
structure CutShort (stopped wentOn : List EvalError × State × Bool) : Prop where
  errors : stopped.1 = wentOn.1.take 1
  lines : stopped.2.1.lines.toList <+: wentOn.2.1.lines.toList
  finished : wentOn.2.2 = true → stopped.2.2 = true
  same : wentOn.1 = [] → stopped.2 = wentOn.2

theorem cutShort_runAll (config : EvaluatorConfig) (fuel : Nat) (stmts : List Stmt) (s : State) :
    CutShort (runAll { config with abortOnError := true } fuel stmts s)
      (runAll { config with abortOnError := false } fuel stmts s) := by
  induction stmts generalizing s with
  | nil => exact ⟨rfl, List.prefix_rfl, id, fun _ => rfl⟩
  | cons stmt rest ih =>
    have hstopped (e : EvalError) (s' : State) : CutShort ([e], s', true)
        (e :: (runAll { config with abortOnError := false } fuel rest s').1,
          (runAll { config with abortOnError := false } fuel rest s').2) :=
      ⟨rfl, lines_runAll _ fuel rest s', fun _ => rfl, by simp⟩
    have hcontext : Context.of { config with abortOnError := true } fuel =
        Context.of { config with abortOnError := false } fuel := by
      apply Context.of_congr <;> rfl
    unfold runAll
    rw [hcontext]
    cases execute (Context.of { config with abortOnError := false } fuel) stmt s with
    | ok flow s' =>
      dsimp only
      cases strayError? flow with
      | none => exact ih s'
      | some e => exact hstopped e s'
    | error h s' =>
      cases h with
      | outOfFuel => exact ⟨rfl, List.prefix_rfl, id, fun _ => rfl⟩
      | error e => exact hstopped e s'

/--
Stopping at the first error only cuts a run short: it reports the first diagnostic of the run that goes on, and has
printed the first lines of that run. If there is nothing to report the two runs end in the same state.
-/
theorem run_abortOnError (config : EvaluatorConfig) (s : State) (fuel : Nat) (program : Program) :
    let wentOn := run ⟨{ config with abortOnError := false }, s⟩ fuel program
    let stopped := run ⟨{ config with abortOnError := true }, s⟩ fuel program
    stopped.diagnostics = wentOn.diagnostics.take 1 ∧
      stopped.session.state.lines.toList <+: wentOn.session.state.lines.toList ∧
      (wentOn.finished = true → stopped.finished = true) ∧
      (wentOn.diagnostics = [] →
        stopped.session.state = wentOn.session.state ∧ stopped.finished = wentOn.finished) := by
  have hcut := cutShort_runAll config fuel program.statements s
  refine ⟨?_, hcut.lines, hcut.finished, ?_⟩
  · change List.map EvalError.diagnostic _ = (List.map EvalError.diagnostic _).take 1
    rw [hcut.errors, List.map_take]
  · intro hnone
    have hsame := hcut.same (List.map_eq_nil_iff.mp hnone)
    exact ⟨congrArg Prod.fst hsame, congrArg Prod.snd hsame⟩

def printingProgram : Program where
  statements := [
    .print .unplaced [.literal .unplaced (.int 1)],
    .block .unplaced [
      .print .unplaced [.literal .unplaced (.int 2)],
      .expr .unplaced (.var .unplaced "missing")],
    .print .unplaced [.literal .unplaced (.int 3)]]

theorem run_abortOnError_printingProgram :
    let wentOn := run ⟨{ EvaluatorConfig.default with abortOnError := false }, (start .default).state⟩ 1
    let stopped := run ⟨{ EvaluatorConfig.default with abortOnError := true }, (start .default).state⟩ 1
    let quietProgram := ⟨printingProgram.statements.take 1⟩
    (wentOn printingProgram).session.state.lines = #["1", "2", "3"] ∧
      (stopped printingProgram).session.state.lines = #["1", "2"] ∧
      (stopped printingProgram).diagnostics = (wentOn printingProgram).diagnostics.take 1 ∧
      (stopped printingProgram).finished = true ∧
      (stopped quietProgram).session.state = (wentOn quietProgram).session.state := by
  have hcut := run_abortOnError .default (start .default).state 1
  refine ⟨by decide +kernel, by decide +kernel, (hcut printingProgram).1, ?_, ?_⟩
  · exact (hcut printingProgram).2.2.1 (by decide +kernel)
  · have hquiet := (hcut ⟨printingProgram.statements.take 1⟩).2.2.2 (by decide +kernel)
    exact hquiet.1

end Session

end Arbor.Evaluation
