import Arbor.CommandLine.Host
import Arbor.Json.Reader
import Arbor.Manifest
import Arbor.Syntax.Decode

/-!
This module contains what both commands load: the tree of a program, and the manifest of the project it is part of.
-/

namespace Arbor.CommandLine

variable {m : Type → Type} [Monad m] (host : Host m)

/--
The program in the text of a file, where the parts of a variant may be listed by position.
-/
def parseProgram (text : String) : Option Program :=
  (Json.read? Json.fileDepth text).bind (Program.ofJson? true)

def loadProgram (input : String) : m (Except String Program) := do
  match ← host.readFile input with
  | .error e => return .error s!"error: could not read '{input}': {e.message}"
  | .ok text =>
    match parseProgram text with
    | none => return .error s!"error: invalid syntax tree in '{input}'"
    | some p => return .ok p

def manifestFile : String := "Oak.toml"

def findManifest : List String → m (Except ManifestError Manifest)
  | [] => return .ok .default
  | directory :: rest => do
    let path := directory ++ manifestFile
    if ← host.isFile path then
      match ← host.readFile path with
      | .ok text => return Manifest.read text
      | .error e => return .error (.unreadable e.message)
    else findManifest rest

/--
Load the manifest of the project that a file is part of: the one in the nearest directory around it.
-/
def loadManifest (input : String) : m (Except String Manifest) := do
  match ← findManifest host (Path.ancestors (← host.absolute input)) with
  | .ok manifest => return .ok manifest
  | .error e => return .error ("error: " ++ e.message)

end Arbor.CommandLine
