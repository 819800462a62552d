import Arbor.Json.Basic
import Arbor.Decimal.Reader

/-!
This module contains the reading of JSON values that have no parts, and of strings as the names of fields.

Each is read from the start of a text, and what follows is handed back. A text that is not well formed is
refused; one that is, but means nothing, is read as nothing.
-/

namespace Arbor.Json

def isSpace (c : Char) : Bool :=
  c == ' ' || c == '\n' || c == '\t' || c == '\r'

def skipSpace (cs : List Char) : List Char :=
  cs.dropWhile isSpace

def hex4? : List Char → Option (Nat × List Char)
  | a :: b :: c :: d :: rest => do
    let digit (x : Char) : Option Nat :=
      if x.isDigit then some (x.toNat - '0'.toNat)
      else if 'a' ≤ x ∧ x ≤ 'f' then some (x.toNat - 'a'.toNat + 10)
      else if 'A' ≤ x ∧ x ≤ 'F' then some (x.toNat - 'A'.toNat + 10)
      else none
    some ((((← digit a) * 16 + (← digit b)) * 16 + (← digit c)) * 16 + (← digit d), rest)
  | _ => none

def lowSurrogate? : List Char → Option (Nat × List Char)
  | '\\' :: 'u' :: rest =>
    (hex4? rest).bind fun (low, rest) =>
      if 0xdc00 ≤ low ∧ low < 0xe000 then some (low, rest) else none
  | _ => none

/--
The character after a backslash and `u`: one code unit, or the two halves of a surrogate pair. Half a pair
stands for no character.
-/
def unicodeEscape? (cs : List Char) : Option (Option Char × List Char) := do
  let (unit, rest) ← hex4? cs
  if 0xd800 ≤ unit ∧ unit < 0xdc00 then
    match lowSurrogate? rest with
    | some (low, rest) =>
      some (some (Char.ofNat (0x10000 + (unit - 0xd800) * 0x400 + (low - 0xdc00))), rest)
    | none => some (none, rest)
  else if 0xdc00 ≤ unit ∧ unit < 0xe000 then some (none, rest)
  else some (some (Char.ofNat unit), rest)

def shortEscape? : Char → Option Char
  | '"' => some '"'
  | '\\' => some '\\'
  | '/' => some '/'
  | 'b' => some '\x08'
  | 'f' => some '\x0c'
  | 'n' => some '\n'
  | 'r' => some '\r'
  | 't' => some '\t'
  | _ => none

/--
The rest of a string after its opening quote; one with half a surrogate pair in it has no text. The bound is
no less than the number of characters.
-/
def readString? (bound : Nat) (cs : List Char) : Option (Option String × List Char) :=
  go bound (some "") cs
where
  /-- Read on from the text read so far; the bound counts the characters that may be left. -/
  go : Nat → Option String → List Char → Option (Option String × List Char)
    | _, text, '"' :: rest => some (text, rest)
    | fuel + 1, text, '\\' :: 'u' :: rest => do
      let (c?, rest) ← unicodeEscape? rest
      go fuel (text.bind fun text => c?.map text.push) rest
    | fuel + 1, text, '\\' :: c :: rest => do
      let c ← shortEscape? c
      go fuel (text.map (·.push c)) rest
    | fuel + 1, text, c :: rest =>
      if c.toNat < 0x20 then none else go fuel (text.map (·.push c)) rest
    | _, _, _ => none

def isNumberChar (c : Char) : Bool :=
  c.isDigit || c == '-' || c == '+' || c == '.' || c == 'e' || c == 'E'

/--
The number written by a run of number characters. The whole part has no leading zero, a point has digits on
both sides, and the exponent has digits. A whole number outside 64 bits, and the zero with a sign, are read
as floats; there is no number beyond the finite range.
-/
def number? (cs : List Char) : Option (Option Number) := do
  let (negative, body) := match cs with
    | '-' :: rest => (true, rest)
    | rest => (false, rest)
  let whole := body.takeWhile Char.isDigit
  let rest := body.dropWhile Char.isDigit
  let real (m : Nat) (e : Int) : Option Number :=
    let x := Decimal.nearestFloat m e
    if x.isFinite then some (.real (if negative then -x else x)) else none
  if whole.isEmpty ∨ (whole.head? = some '0' ∧ whole.length ≠ 1) then none
  match rest with
  | [] =>
    let n : Int := if negative then -(Decimal.digitsValue whole : Int) else Decimal.digitsValue whole
    some (if -2 ^ 63 ≤ n ∧ n < 2 ^ 64 ∧ ¬ (negative ∧ n = 0) then some (.integer n)
      else real (Decimal.digitsValue whole) 0)
  | '.' :: rest =>
    let fraction := rest.takeWhile Char.isDigit
    if fraction.isEmpty then none
    let e ← Decimal.readExponent? (rest.dropWhile Char.isDigit)
    some (real (Decimal.digitsValue (whole ++ fraction)) (e - fraction.length))
  | rest =>
    let e ← Decimal.readExponent? rest
    some (real (Decimal.digitsValue whole) e)

def ofMeaning {α : Type} (toJson : α → Json) : Option α → Json
  | some a => toJson a
  | none => .unusable

def scalar? (bound : Nat) : List Char → Option (Json × List Char)
  | 'n' :: 'u' :: 'l' :: 'l' :: rest => some (.null, rest)
  | 't' :: 'r' :: 'u' :: 'e' :: rest => some (.bool true, rest)
  | 'f' :: 'a' :: 'l' :: 's' :: 'e' :: rest => some (.bool false, rest)
  | '"' :: rest => (readString? bound rest).map fun (s?, rest) => (ofMeaning .string s?, rest)
  | cs => (number? (cs.takeWhile isNumberChar)).map fun n? =>
      (ofMeaning .number n?, cs.dropWhile isNumberChar)

def fieldName? (bound : Nat) (cs : List Char) : Option (Option String × List Char) :=
  match skipSpace cs with
  | '"' :: rest => do
    let (name?, rest) ← readString? bound rest
    match skipSpace rest with
    | ':' :: rest => some (name?, rest)
    | _ => none
  | _ => none

end Arbor.Json
