/-!
This module contains the settings of the evaluator and of the generator.
-/

namespace Arbor

/--
Settings of the evaluator: whether the first failing statement ends a run, how deep calls may nest, and how
many elements a declaration may ask for by size.
-/
structure EvaluatorConfig where
  abortOnError : Bool
  maxCallDepth : Nat
  maxArrayLength : Nat
  deriving Repr, DecidableEq

/--
Settings of the generator: whether comments are part of the assembly, and up to which length arrays are
filled and copied without a loop.
-/
structure GeneratorConfig where
  comments : Bool
  unrollLimit : Nat
  deriving Repr, DecidableEq

def EvaluatorConfig.default : EvaluatorConfig := ⟨false, 256, 16777216⟩

def GeneratorConfig.default : GeneratorConfig := ⟨true, 16⟩

end Arbor
