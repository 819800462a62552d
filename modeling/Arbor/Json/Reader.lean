import Arbor.Json.Skip

/-!
This module contains the reading of JSON texts. Arrays and objects that nest deeper than a given limit are skipped
and unusable; the limit is what the reading of a value is structured on. The characters of a string and the elements
of an array or object are bounded by the length of the whole text, which is taken once and handed down.
-/

namespace Arbor.Json

def separated {α : Type} (item : List Char → Option (α × List Char)) (close : Char) :
    Nat → List Char → Option (List α × List Char)
  | 0, _ => none
  | fuel + 1, cs => do
    let (x, rest) ← item cs
    match skipSpace rest with
    | ',' :: rest =>
      let (xs, rest) ← separated item close fuel rest
      some (x :: xs, rest)
    | c :: rest => if c = close then some ([x], rest) else none
    | [] => none

def listOf {α : Type} (item : List Char → Option (α × List Char)) (close : Char) (bound : Nat)
    (cs : List Char) : Option (List α × List Char) :=
  match skipSpace cs with
  | c :: rest => if c = close then some ([], rest) else separated item close bound (c :: rest)
  | [] => none

def field? (value : List Char → Option (Json × List Char)) (bound : Nat) (cs : List Char) :
    Option ((Option String × Json) × List Char) := do
  let (name?, rest) ← fieldName? bound cs
  let (x, rest) ← value rest
  some ((name?, x), rest)

def objectOf (fields : List (Option String × Json)) : Json :=
  ofMeaning .object (fields.mapM fun (name?, x) => name?.map (·, x))

/--
A value. Its arrays and objects are usable as deep as the second number says.
-/
def value? (bound : Nat) : Nat → List Char → Option (Json × List Char)
  | depth, cs =>
    match skipSpace cs with
    | '[' :: rest =>
      match depth with
      | 0 => skipped ('[' :: rest)
      | depth + 1 =>
        (listOf (value? bound depth) ']' bound rest).map fun (xs, rest) => (.array xs, rest)
    | '\x7b' :: rest =>
      match depth with
      | 0 => skipped ('\x7b' :: rest)
      | depth + 1 =>
        (listOf (field? (value? bound depth) bound) '\x7d' bound rest).map fun (fields, rest) =>
          (objectOf fields, rest)
    | cs => scalar? bound cs
where
  /-- A value that is passed over. -/
  skipped (cs : List Char) : Option (Json × List Char) :=
    (skip? bound cs).map fun rest => (.unusable, rest)

def fileDepth : Nat := 127

def read? (depth : Nat) (text : String) : Option Json := do
  let cs := text.toList
  let (j, rest) ← value? cs.length depth cs
  if (skipSpace rest).isEmpty then some j else none

end Arbor.Json
