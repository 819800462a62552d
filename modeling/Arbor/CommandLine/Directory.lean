import Arbor.CommandLine.Host

/-!
This module contains file trees that are held in memory, and the host that works on one.
-/

namespace Arbor.CommandLine

/--
A tree of files. Files and directories are given by their components from the root on; a directory that holds
something is there without being listed.
-/
structure FileTree where
  files : List (List String × String)
  directories : List (List String)

/--
What a path names: a directory that is reached by its components, or an entry of a directory, which need not exist. The
flag of the last says whether the path ends with a slash.
-/
inductive Target where
  | directory (path : List String)
  | entry (path : List String) (slash : Bool)

inductive Place where
  | directory (path : List String)
  | file (path : List String) (content : String)

namespace FileTree

def nameLimit : Nat := 255

def pathLimit : Nat := 4095

def isDirectory (t : FileTree) (path : List String) : Bool :=
  path.isEmpty || t.directories.any (path.isPrefixOf ·)
    || t.files.any fun (file, _) => path.isPrefixOf file && file != path

def entry (directory : List String) (name : String) : Except FileError (List String) :=
  if nameLimit < name.utf8ByteSize then .error .nameTooLong else .ok (directory ++ [name])

def enter (t : FileTree) (directory : List String) (name : String) :
    Except FileError (List String) :=
  if name = "" ∨ name = "." then .ok directory
  else if name = ".." then .ok directory.dropLast
  else do
    let path ← entry directory name
    if t.isDirectory path then return path
    else if (t.files.lookup path).isSome then throw .notDirectory
    else throw .notFound

/--
What is named by a path that is seen from the current directory. All that the path goes through must exist.
-/
def target (t : FileTree) (current : List String) (path : String) : Except FileError Target :=
  if path = "" then .error .notFound
  else if pathLimit < path.utf8ByteSize then .error .nameTooLong
  else
    let components := Path.components path
    match components.reverse.dropWhile (· = "") with
    | [] => .ok (.directory [])
    | name :: parents => do
      let directory ← parents.reverse.foldlM t.enter (if Path.isAbsolute path then [] else current)
      if name = "." ∨ name = ".." then return .directory (← t.enter directory name)
      else return .entry (← entry directory name) (components.getLast? = some "")

def find (t : FileTree) (current : List String) (path : String) : Except FileError Place := do
  match ← t.target current path with
  | .directory path => return .directory path
  | .entry path slash =>
    if t.isDirectory path then return .directory path
    else match t.files.lookup path with
      | some content => if slash then throw .notDirectory else return .file path content
      | none => throw .notFound

def read (t : FileTree) (current : List String) (path : String) : Except FileError String := do
  match ← t.find current path with
  | .file _ content => return content
  | .directory _ => throw .isDirectory

def put (t : FileTree) (path : List String) (content : String) : FileTree :=
  if (t.files.lookup path).isSome then
    { t with files := t.files.map fun (file, old) => (file, if file = path then content else old) }
  else { t with files := t.files ++ [(path, content)] }

def write (t : FileTree) (current : List String) (path content : String) :
    Except FileError FileTree := do
  match ← t.target current path with
  | .directory _ => throw .isDirectory
  | .entry path slash =>
    if slash ∨ t.isDirectory path then throw .isDirectory else return t.put path content

def makeDirectory (t : FileTree) (current : List String) (path : String) :
    Except FileError FileTree := do
  match ← t.target current path with
  | .directory _ => throw .alreadyExists
  | .entry path _ =>
    if t.isDirectory path ∨ (t.files.lookup path).isSome then throw .alreadyExists
    else return { t with directories := t.directories ++ [path] }

end FileTree

structure Memory where
  tree : FileTree
  current : List String
  output : String
  errors : String

namespace Memory

def change (f : FileTree → List String → Except FileError FileTree) :
    StateM Memory (Except FileError Unit) := do
  let s ← get
  match f s.tree s.current with
  | .ok tree =>
    set { s with tree }
    return .ok ()
  | .error e => return .error e

def place? (path : String) : StateM Memory (Option Place) := do
  let s ← get
  return (s.tree.find s.current path).toOption

def host : Host (StateM Memory) where
  readFile path := return (← get).tree.read (← get).current path
  writeFile path content := change fun t current => t.write current path content
  makeDirectory path := change fun t current => t.makeDirectory current path
  isFile path := do
    match ← place? path with
    | some (.file ..) => return true
    | _ => return false
  isDirectory path := do
    match ← place? path with
    | some (.directory _) => return true
    | _ => return false
  pathExists path := return (← place? path).isSome
  absolute path := do
    match ← place? path with
    | some (.file path _) | some (.directory path) => return "/" ++ Path.ofComponents path
    | none => return path
  currentDirectory := return "/" ++ Path.ofComponents (← get).current
  print text := modify fun s => { s with output := s.output ++ text }
  printError text := modify fun s => { s with errors := s.errors ++ text }

end Memory

end Arbor.CommandLine
