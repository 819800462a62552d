import Arbor.CommandLine.Tool

/-!
This module contains the program: the tools on the files of the machine. Its first argument names the tool.
-/

namespace Arbor.CommandLine

def fileError : IO.Error → FileError
  | .noFileOrDirectory .. => .notFound
  | .alreadyExists .. => .alreadyExists
  | .inappropriateType _ code details =>
    if isCode 20 code then .notDirectory
    else if isCode 21 code then .isDirectory
    else .other details
  | .invalidArgument _ code details => if isCode 36 code then .nameTooLong else .other details
  | e => .other (toString e)
where
  /-- Whether a code is the given one, which some accesses report as a negative number. -/
  isCode (expected code : UInt32) : Bool :=
    code == expected || code == -expected

def access {α : Type} (x : IO α) : IO (Except FileError α) := do
  match ← x.toBaseIO with
  | .ok a => return .ok a
  | .error e => return .error (fileError e)

def readText (path : String) : IO (Except FileError String) := do
  match ← access (IO.FS.readBinFile path) with
  | .error e => return .error e
  | .ok bytes =>
    match String.fromUTF8? bytes with
    | some text => return .ok text
    | none => return .error (.other "stream did not contain valid UTF-8")

def succeeds {α : Type} (x : IO α) : IO Bool := do
  match ← x.toBaseIO with
  | .ok _ => return true
  | .error _ => return false

def machine : Host IO where
  readFile := readText
  writeFile path content := access (IO.FS.writeFile path content)
  makeDirectory path := access (IO.FS.createDir path)
  isFile path := succeeds (IO.FS.readBinFile path)
  isDirectory path := do
    match ← (IO.FS.realPath path).toBaseIO with
    | .ok place => place.isDir
    | .error _ => return false
  pathExists path := succeeds (IO.FS.realPath path)
  absolute path := do
    match ← (IO.FS.realPath path).toBaseIO with
    | .ok place => return toString place
    | .error _ => return path
  currentDirectory := return toString (← IO.currentDir)
  print := IO.print
  printError := IO.eprint

end Arbor.CommandLine

open Arbor.CommandLine

def main (arguments : List String) : IO UInt32 := do
  match arguments with
  | name :: rest =>
    match Tool.ofName? name with
    | some tool => return (← tool.run machine rest).code.toUInt32
    | none =>
      IO.eprintln "Usage: arbor oak|oakc <ARGUMENTS>"
      return 2
  | [] =>
    IO.eprintln "Usage: arbor oak|oakc <ARGUMENTS>"
    return 2
