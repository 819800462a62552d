import Arbor.CommandLine.Generate
import Arbor.CommandLine.Init
import Arbor.CommandLine.Run

/-!
This module contains the two tools: the one that evaluates programs and creates projects, and the one that lowers
them.
-/

namespace Arbor.CommandLine

inductive Tool where
  | oak
  | oakc
  deriving Repr, DecidableEq

namespace Tool

def name : Tool → String
  | oak => "oak"
  | oakc => "oakc"

def ofName? : String → Option Tool
  | "oak" => some oak
  | "oakc" => some oakc
  | _ => none

def usage : Tool → String
  | oak => "Usage: oak <COMMAND>\n\nCommands:\n  run   Evaluate a syntax tree\n"
    ++ "  init  Create a new Oak project\n  help  Print this message\n"
  | oakc => "Usage: oakc [OPTIONS] <INPUT>\n"

def version (t : Tool) : String :=
  t.name ++ " 0.1.0"

variable {m : Type → Type} [Monad m] (host : Host m)

def stop (t : Tool) : Stop → m ExitStatus
  | .misuse => do
    host.printError t.usage
    return .misuse
  | .help => do
    host.print t.usage
    return .success
  | .version => do
    host.printLine t.version
    return .success

def oakForm : CommandForm where
  options := []
  operands := 0
  allowsEmpty := true
  hasVersion := true

def helpTopics : List (List String) := [[], ["run"], ["init"], ["help"]]

def runOak : List String → m ExitStatus
  | "run" :: rest =>
    match RunCommand.read rest with
    | .ok c => c.run host
    | .error s => oak.stop host s
  | "init" :: rest =>
    match InitCommand.read rest with
    | .ok c => c.run host
    | .error s => oak.stop host s
  | "help" :: rest => oak.stop host (if helpTopics.contains rest then .help else .misuse)
  | arguments =>
    match oakForm.read arguments with
    | .ok _ => oak.stop host .misuse
    | .error s => oak.stop host s

def runOakc (arguments : List String) : m ExitStatus :=
  match GenerateCommand.read arguments with
  | .ok c => c.run host
  | .error s => oakc.stop host s

def run (t : Tool) (arguments : List String) : m ExitStatus :=
  match t with
  | oak => runOak host arguments
  | oakc => runOakc host arguments

end Tool

end Arbor.CommandLine
