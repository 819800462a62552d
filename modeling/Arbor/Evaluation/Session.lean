import Arbor.Evaluation.Evaluator

/-!
This module contains sessions: an evaluator that runs programs one after the other on the same state.

A failing top-level statement is reported, and the run goes on with the next statement unless the settings
say otherwise.
-/

namespace Arbor.Evaluation

structure Session where
  config : EvaluatorConfig
  state : State

/--
What the run of a program reports, and the session after it. A run whose fuel was used up stopped where that
happened.
-/
structure Report where
  diagnostics : List Diagnostic
  session : Session
  finished : Bool

namespace Session

def startEnvironment : Environment :=
  { Environment.empty with
    scopes := #[⟨(Embedded.all.map fun f => (f.name, ⟨.function, .function (.embedded f)⟩)).reverse,
      none⟩] }

def start (config : EvaluatorConfig) : Session :=
  ⟨config, ⟨startEnvironment, #[], 0⟩⟩

def output (s : Session) : String :=
  "\n".intercalate s.state.lines.toList

/--
The error of a signal that no construct consumed.
-/
def strayError? : Flow → Option EvalError
  | .normal => none
  | .breaking span => some ⟨.breakOutsideLoop, span⟩
  | .continuing span => some ⟨.continueOutsideLoop, span⟩
  | .returning _ span => some ⟨.returnOutsideFunction, span⟩

def runAll (config : EvaluatorConfig) (fuel : Nat) : List Stmt → State → List EvalError × State × Bool
  | [], s => ([], s, true)
  | stmt :: rest, s =>
    let continueWith (error? : Option EvalError) (s : State) : List EvalError × State × Bool :=
      match error? with
      | none => runAll config fuel rest s
      | some e =>
        if config.abortOnError then ([e], s, true)
        else
          let (errors, s, finished) := runAll config fuel rest s
          (e :: errors, s, finished)
    match execute (Context.of config fuel) stmt s with
    | .ok flow s => continueWith (strayError? flow) s
    | .error (.error e) s => continueWith (some e) s
    | .error .outOfFuel s => ([], s, false)

/--
Run a program. The fuel bounds the rounds of every loop and the nesting of calls.
-/
def run (session : Session) (fuel : Nat) (program : Program) : Report :=
  let (errors, state, finished) := runAll session.config fuel program.statements session.state
  ⟨errors.map EvalError.diagnostic, ⟨session.config, state⟩, finished⟩

/--
The fuel of a run that is meant to go on for as long as it takes.
-/
def ampleFuel : Nat := 2 ^ 62

end Session

end Arbor.Evaluation
