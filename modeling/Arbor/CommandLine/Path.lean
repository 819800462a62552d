/-!
This module contains paths of files: their components, separated by slashes.
-/

namespace Arbor.CommandLine.Path

/--
The components of a path. A path that starts with a slash has an empty first component, and one that ends with a
slash an empty last one.
-/
def splitList : List Char → List (List Char)
  | [] => [[]]
  | c :: cs =>
    if c = '/' then [] :: splitList cs
    else match splitList cs with
      | [] => [[c]]
      | component :: rest => (c :: component) :: rest

def components (path : String) : List String :=
  (splitList path.toList).map String.ofList

def ofComponents (components : List String) : String :=
  "/".intercalate components

def isAbsolute (path : String) : Bool :=
  path.toList.head? == some '/'

def steps (path : String) : List String :=
  let kept := (components path).filter fun c => c ≠ "" ∧ c ≠ "."
  if isAbsolute path then "" :: kept else kept

def join (directory name : String) : String :=
  if directory = "" ∨ directory.toList.getLast? = some '/' then directory ++ name
  else directory ++ "/" ++ name

def baseName (path : String) : String :=
  (components path).getLast?.getD ""

def stem (name : String) : String :=
  let before := (name.toList.reverse.dropWhile (· != '.')).drop 1
  if before.isEmpty then name else String.ofList before.reverse

def withExtension (path extension : String) : String :=
  let parents := (components path).dropLast
  ofComponents (parents ++ [stem (baseName path) ++ "." ++ extension])

/--
The directories that a path lies in, the nearest first, each with a slash at its end. The last is the root, or for a
relative path the empty path of the current directory.
-/
def ancestors (path : String) : List String :=
  go (components path).dropLast.reverse
where
  /-- The directories that are given by their components, the last first. -/
  go : List String → List String
    | [] => [""]
    | [""] => ["/"]
    | c :: rest => (ofComponents (c :: rest).reverse ++ "/") :: go rest

end Arbor.CommandLine.Path
