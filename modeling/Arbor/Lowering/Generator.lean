import Arbor.Assembly.File
import Arbor.Config
import Arbor.Lowering.Statement

/-!
This module contains the generator, which lowers programs and puts what it wrote into an assembly file.
-/

namespace Arbor.Lowering

open Assembly

structure Generator where
  config : GeneratorConfig
  state : State

namespace Generator

def start (config : GeneratorConfig) : Generator :=
  ⟨config, .start config.comments⟩

def lower (g : Generator) (p : Program) : Option LoweringError × Generator :=
  match lowerStmts g.config.unrollLimit p.statements g.state with
  | .ok _ state => (none, { g with state })
  | .error e state => (some e, { g with state })

def lines (g : Generator) : List Line :=
  g.state.assembler.lines.toList

/--
The assembly file of what was lowered. The variables that are left on the stack are released.
-/
def finish (g : Generator) : File where
  data := g.state.data
  main := (g.state.assembler.write (release g.state.frame.bytes)).lines.toList
  runtime := g.state.routines.materialize g.config.comments
  used := g.state.routines.used

end Generator

def generate (config : GeneratorConfig) (p : Program) : Except LoweringError File :=
  match (Generator.start config).lower p with
  | (none, g) => .ok g.finish
  | (some e, _) => .error e

end Arbor.Lowering
