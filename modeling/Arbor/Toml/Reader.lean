import Arbor.Toml.Scalar

/-!
This module contains the reading of TOML documents. Values nest no deeper than a limit, which is what the reading of
a value is structured on; the items of an array and the lines of a document are bounded by the length of the text.
-/

namespace Arbor.Toml

def arrayItems (item : List Char → Option (Value × List Char)) :
    Nat → List Char → Option (List Value × List Char)
  | 0, _ => none
  | fuel + 1, cs =>
    match skipGap cs with
    | ']' :: rest => some ([], rest)
    | cs => do
      let (v, rest) ← item cs
      match skipGap rest with
      | ',' :: rest =>
        let (vs, rest) ← arrayItems item fuel rest
        some (v :: vs, rest)
      | ']' :: rest => some ([v], rest)
      | _ => none

def field? (value : List Char → Option (Value × List Char)) (cs : List Char) :
    Option ((List String × String × Value) × List Char) := do
  let ((path, key), rest) ← key? cs
  let (v, rest) ← value (skipBlanks (← after? '=' rest))
  some ((path, key, v), rest)

def braceFields (value : List Char → Option (Value × List Char)) :
    Nat → Table → List Char → Option (Table × List Char)
  | 0, _, _ => none
  | fuel + 1, t, cs => do
    let ((path, key, v), rest) ← field? value cs
    let t ← t.add path key v
    match skipBlanks rest with
    | ',' :: rest => braceFields value fuel t rest
    | '\x7d' :: rest => some (t, rest)
    | _ => none

def braces? (value : List Char → Option (Value × List Char)) (cs : List Char) :
    Option (Table × List Char) :=
  match skipBlanks cs with
  | '\x7d' :: rest => some (.empty .header, rest)
  | cs => braceFields value cs.length (.empty .header) cs

def value? : Nat → List Char → Option (Value × List Char)
  | depth, cs =>
    match cs with
    | '[' :: rest =>
      match depth with
      | 0 => none
      | depth + 1 =>
        (arrayItems (value? depth) (rest.length + 1) rest).map fun (vs, rest) => (.array vs, rest)
    | '\x7b' :: rest =>
      match depth with
      | 0 => none
      | depth + 1 =>
        (braces? (value? depth) rest).map fun (t, rest) => (.table .braces t.fields, rest)
    | cs => scalarValue? cs

structure Document where
  root : Table
  current : List String

namespace Document

def empty : Document :=
  ⟨.empty .header, []⟩

def add (d : Document) (path : List String) (key : String) (v : Value) : Option Document := do
  let root ← d.root.changeAt false (fun t => t.add path key v) d.current
  some { d with root }

def openTable (d : Document) (path : List String) (key : String) : Option Document := do
  some ⟨← d.root.openTable path key, path ++ [key]⟩

def openRow (d : Document) (path : List String) (key : String) : Option Document := do
  some ⟨← d.root.openRow path key, path ++ [key]⟩

def line? (d : Document) (cs : List Char) : Option (Document × List Char) := do
  match skipBlanks cs with
  | '[' :: '[' :: rest =>
    let ((path, key), rest) ← key? rest
    let rest ← lineEnd? (← after? ']' (← after? ']' rest))
    some (← d.openRow path key, rest)
  | '[' :: rest =>
    let ((path, key), rest) ← key? rest
    let rest ← lineEnd? (← after? ']' rest)
    some (← d.openTable path key, rest)
  | cs =>
    match lineEnd? cs with
    | some rest => some (d, rest)
    | none =>
      let ((path, key, v), rest) ← field? (value? depthLimit) cs
      let rest ← lineEnd? rest
      some (← d.add path key v, rest)

def lines? : Nat → Document → List Char → Option Document
  | _, d, [] => some d
  | 0, _, _ => none
  | fuel + 1, d, cs => do
    let (d, rest) ← d.line? cs
    lines? fuel d rest

end Document

def read? (text : String) : Option Table :=
  let cs := match text.toList with
    | '\ufeff' :: rest => rest
    | cs => cs
  (Document.lines? cs.length .empty cs).map Document.root

end Arbor.Toml
