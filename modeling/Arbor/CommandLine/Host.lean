import Arbor.CommandLine.Path

/-!
This module contains what the commands need from the system they run on: files, and somewhere to print.
-/

namespace Arbor.CommandLine

inductive FileError where
  | notFound
  | alreadyExists
  | notDirectory
  | isDirectory
  | nameTooLong
  | other (reason : String)
  deriving Repr, DecidableEq

def FileError.message : FileError → String
  | notFound => "No such file or directory (os error 2)"
  | alreadyExists => "File exists (os error 17)"
  | notDirectory => "Not a directory (os error 20)"
  | isDirectory => "Is a directory (os error 21)"
  | nameTooLong => "File name too long (os error 36)"
  | other reason => reason

/--
The services of a system. `makeDirectory` creates one directory in an existing one. `absolute` is the path of an
existing file from the root on, without links.
-/
structure Host (m : Type → Type) where
  readFile : String → m (Except FileError String)
  writeFile : String → String → m (Except FileError Unit)
  makeDirectory : String → m (Except FileError Unit)
  isFile : String → m Bool
  isDirectory : String → m Bool
  pathExists : String → m Bool
  absolute : String → m String
  currentDirectory : m String
  print : String → m Unit
  printError : String → m Unit

inductive ExitStatus where
  | success
  | failure
  | misuse
  deriving Repr, DecidableEq

def ExitStatus.code : ExitStatus → UInt8
  | success => 0
  | failure => 1
  | misuse => 2

namespace Host

variable {m : Type → Type} [Monad m] (host : Host m)

def printLine (line : String) : m Unit :=
  host.print (line ++ "\n")

def ensureDirectory (path : String) : m (Except FileError Unit) := do
  match ← host.makeDirectory path with
  | .ok _ => return .ok ()
  | .error e => if ← host.isDirectory path then return .ok () else return .error e

def makeInside (path : String) : List String → m (Except FileError Unit)
  | [] => host.ensureDirectory path
  | name :: parents => do
    match ← host.ensureDirectory path with
    | .error .notFound =>
      match ← makeInside (Path.ofComponents (name :: parents).reverse) parents with
      | .ok _ => host.ensureDirectory path
      | .error e => return .error e
    | result => return result

def makeDirectories (path : String) : m (Except FileError Unit) :=
  if path = "" then return .ok ()
  else host.makeInside path ((Path.steps path).reverse.drop 1)

def fail (message : String) : m ExitStatus := do
  host.printError (message ++ "\n")
  return .failure

end Host

end Arbor.CommandLine
