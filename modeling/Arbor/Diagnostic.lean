import Arbor.Syntax.Span

/-!
This module contains diagnostics: what the evaluator and the generator report about a program.
-/

namespace Arbor

inductive Stage where
  | evaluation
  | generation
  deriving Repr, DecidableEq

def Stage.text : Stage → String
  | evaluation => "evaluation"
  | generation => "codegen"

structure Diagnostic where
  stage : Stage
  message : String
  span : Span
  suggestion : Option String
  deriving Repr, DecidableEq

namespace Diagnostic

/--
A fatal diagnostic means that there is no assembly of the program.
-/
def isFatal (d : Diagnostic) : Bool :=
  d.stage == .generation

/--
The message with its stage, and on a second line the place unless the node has none.
-/
def text (d : Diagnostic) : String :=
  let head := "error[" ++ d.stage.text ++ "]: " ++ d.message
  if d.span.isUnplaced then head else head ++ "\n  --> " ++ d.span.text

def report (d : Diagnostic) : String :=
  d.text ++ "\n"
    ++ (match d.suggestion with
      | none => ""
      | some hint => "   = help: " ++ hint ++ "\n")
    ++ "\n"

end Diagnostic

end Arbor
