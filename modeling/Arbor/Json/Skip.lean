import Arbor.Json.Scalar

/-!
This module contains the skipping of JSON values: a value is passed over, however deep it nests, and has only to be
well formed.

While a value is skipped, the brackets that are still to be closed are kept in a list, the innermost first.
-/

namespace Arbor.Json

def closeAll : List Char → List Char → List Char × List Char
  | [], cs => ([], cs)
  | c :: pending, cs =>
    match skipSpace cs with
    | d :: rest => if d = c then closeAll pending rest else (c :: pending, d :: rest)
    | [] => (c :: pending, [])

def goOn? (bound : Nat) : List Char × List Char → Option (List Char × List Char)
  | ([], rest) => some ([], rest)
  | ('\x7d' :: pending, ',' :: rest) => (fieldName? bound rest).map fun (_, rest) => ('\x7d' :: pending, rest)
  | (c :: pending, ',' :: rest) => some (c :: pending, rest)
  | _ => none

def enter? (bound : Nat) (close : Char) (pending cs : List Char) : Option (List Char × List Char) :=
  if (skipSpace cs).head? = some close then goOn? bound (closeAll (close :: pending) cs)
  else if close = '\x7d' then (fieldName? bound cs).map fun (_, rest) => (close :: pending, rest)
  else some (close :: pending, cs)

def skipStep? (bound : Nat) : List Char × List Char → Option (List Char × List Char)
  | (pending, cs) =>
    match skipSpace cs with
    | '[' :: rest => enter? bound ']' pending rest
    | '\x7b' :: rest => enter? bound '\x7d' pending rest
    | cs => (scalar? bound cs).bind fun (_, rest) => goOn? bound (closeAll pending rest)

def skipOpen? (bound : Nat) : Nat → List Char × List Char → Option (List Char)
  | 0, _ => none
  | fuel + 1, place =>
    match skipStep? bound place with
    | none => none
    | some ([], rest) => some rest
    | some place => skipOpen? bound fuel place

def skip? (bound : Nat) (cs : List Char) : Option (List Char) :=
  skipOpen? bound bound ([], cs)

end Arbor.Json
