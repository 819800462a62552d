import Arbor.CommandLine.Arguments
import Arbor.CommandLine.Load
import Arbor.Lowering.Generator
import Arbor.Syntax.Outline

/-!
This module contains the command that lowers a program to assembly.
-/

namespace Arbor.CommandLine

structure GenerateCommand where
  input : String
  output : Option String
  source : Option String
  check : Bool
  quiet : Bool
  noComments : Bool
  emitAssembly : Bool
  emitTree : Bool
  deriving Repr, DecidableEq

namespace GenerateCommand

def form : CommandForm where
  options := [⟨"output", some 'o', true⟩, ⟨"source", none, true⟩, ⟨"check", none, false⟩,
    ⟨"quiet", some 'q', false⟩, ⟨"no-comments", none, false⟩, ⟨"emit-asm", none, false⟩,
    ⟨"emit-ast", none, false⟩]
  operands := 1
  allowsEmpty := false
  hasVersion := true

def read (arguments : List String) : Except Stop GenerateCommand := do
  let a ← form.read arguments
  match a.operands with
  | [input] =>
    return ⟨input, a.value? "output", a.value? "source", a.has "check", a.has "quiet",
      a.has "no-comments", a.has "emit-asm", a.has "emit-ast"⟩
  | _ => throw .misuse

def config (c : GenerateCommand) (project : GeneratorConfig) : GeneratorConfig :=
  { project with comments := project.comments && !c.noComments }

/--
Where the assembly is written to: beside the input unless the command says otherwise.
-/
def outputPath (c : GenerateCommand) : String :=
  c.output.getD (Path.withExtension c.input "s")

def summary (c : GenerateCommand) (file : Assembly.File) : String :=
  s!"Generated {c.input} -> {c.outputPath} ({file.main.length} instructions, "
    ++ s!"{file.used.length} runtime routines)"

variable {m : Type → Type} [Monad m] (host : Host m)

def deliver (c : GenerateCommand) (file : Assembly.File) : m ExitStatus := do
  if c.check then
    host.printLine "No errors found."
    return .success
  else if c.emitAssembly then
    host.print file.text
    return .success
  else
    match ← host.writeFile c.outputPath file.text with
    | .ok _ =>
      if !c.quiet then host.printLine (c.summary file)
      return .success
    | .error e => host.fail s!"error: could not write '{c.outputPath}': {e.message}"

def generate (c : GenerateCommand) (program : Program) (project : GeneratorConfig) :
    m ExitStatus := do
  match Lowering.generate (c.config project) program with
  | .ok file => deliver host c file
  | .error e =>
    host.printError e.diagnostic.report
    return .failure

def run (c : GenerateCommand) : m ExitStatus := do
  match ← loadProgram host c.input with
  | .error message => host.fail message
  | .ok program =>
    if c.emitTree then
      host.printLine program.outline
      return .success
    else
      match ← loadManifest host c.input with
      | .error message => host.fail message
      | .ok manifest => generate host c program manifest.generator

end GenerateCommand

end Arbor.CommandLine
