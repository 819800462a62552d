import Arbor.CommandLine.Arguments
import Arbor.CommandLine.Load
import Arbor.Evaluation.Session

/-!
This module contains the command that evaluates a program.
-/

namespace Arbor.CommandLine

structure RunCommand where
  input : String
  source : Option String
  abortOnError : Bool
  debug : Bool
  quiet : Bool
  deriving Repr, DecidableEq

namespace RunCommand

def form : CommandForm where
  options := [⟨"source", none, true⟩, ⟨"abort-on-error", none, false⟩, ⟨"debug", none, false⟩,
    ⟨"quiet", some 'q', false⟩]
  operands := 1
  allowsEmpty := false
  hasVersion := false

def read (arguments : List String) : Except Stop RunCommand := do
  let a ← form.read arguments
  match a.operands with
  | [input] =>
    return ⟨input, a.value? "source", a.has "abort-on-error", a.has "debug", a.has "quiet"⟩
  | _ => throw .misuse

def config (c : RunCommand) (project : EvaluatorConfig) : EvaluatorConfig :=
  { project with abortOnError := project.abortOnError || c.abortOnError }

def globalLines (env : Environment) : List String :=
  "globals:" :: env.globals.map fun (name, b) => s!"  {name}: {b.kind.text} = {b.value.display}"

variable {m : Type → Type} [Monad m] (host : Host m)

def evaluate (c : RunCommand) (program : Program) (project : EvaluatorConfig) : m ExitStatus := do
  let report := (Evaluation.Session.start (c.config project)).run Evaluation.Session.ampleFuel program
  let state := report.session.state
  if !c.quiet then state.lines.forM host.printLine
  report.diagnostics.forM fun d => host.printError d.report
  if c.debug then (globalLines state.env).forM fun line => host.printError (line ++ "\n")
  return if report.diagnostics.isEmpty then .success else .failure

def run (c : RunCommand) : m ExitStatus := do
  match ← loadProgram host c.input with
  | .error message => host.fail message
  | .ok program =>
    match ← loadManifest host c.input with
    | .error message => host.fail message
    | .ok manifest => evaluate host c program manifest.evaluator

end RunCommand

end Arbor.CommandLine
