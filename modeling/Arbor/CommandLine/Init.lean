import Arbor.CommandLine.Arguments
import Arbor.CommandLine.Load

/-!
This module contains the command that creates a project.
-/

namespace Arbor.CommandLine

structure InitCommand where
  name : String
  deriving Repr, DecidableEq

namespace InitCommand

def form : CommandForm where
  options := []
  operands := 1
  allowsEmpty := true
  hasVersion := false

def read (arguments : List String) : Except Stop InitCommand := do
  let a ← form.read arguments
  match a.operands with
  | [name] => return ⟨name⟩
  | _ => throw .misuse

def manifestText (name : String) : String :=
  "[project]\nname = \"" ++ name ++ "\"\n\n[generator]\ncomments = true\nunroll_limit = 16\n\n"
    ++ "[evaluator]\nabort_on_error = false\nmax_call_depth = 256\nmax_array_length = 16777216\n"

def ignoreText : String :=
  "# Generated assembly\n*.s\n"

def isHere (c : InitCommand) : Bool :=
  c.name == "."

def greeting (c : InitCommand) (projectName : String) : List String :=
  [s!"Created Oak project \"{projectName}\"", "  " ++ manifestFile, "  .gitignore", "", "Get started:"]
    ++ (if c.isHere then [] else ["  cd " ++ c.name])
    ++ ["  oak run program.json", "  oakc program.json -o program.s"]

variable {m : Type → Type} [Monad m] (host : Host m)

def write (path content : String) : ExceptT String m Unit := do
  match ← host.writeFile path content with
  | .ok _ => return ()
  | .error e => throw s!"error: failed to write '{path}': {e.message}"

def create (c : InitCommand) (directory projectName : String) : ExceptT String m Unit := do
  let manifestPath := Path.join directory manifestFile
  if ← host.pathExists manifestPath then
    throw ("error: Oak project already exists in this directory\n"
      ++ "  = help: remove Oak.toml to reinitialize, or use a different directory")
  if !c.isHere then
    match ← host.makeDirectories directory with
    | .ok _ => pure ()
    | .error e => throw s!"error: failed to create directory '{c.name}': {e.message}"
  write host manifestPath (manifestText projectName)
  write host (Path.join directory ".gitignore") ignoreText

def run (c : InitCommand) : m ExitStatus := do
  let directory ← if c.isHere then host.currentDirectory else pure c.name
  let projectName := if c.isHere then Path.baseName directory else c.name
  match ← create host c directory projectName with
  | .error message => host.fail message
  | .ok _ =>
    (greeting c projectName).forM host.printLine
    return .success

end InitCommand

end Arbor.CommandLine
