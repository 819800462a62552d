import Arbor.Toml.Basic
import Arbor.Toml.Lexical

/-!
This module contains the reading of numbers, dates and times. Each is read from the start of a text; what follows it
is up to the place it stands in.
-/

namespace Arbor.Toml

/-! Numbers -/

def digitRun? (isDigit : Char → Bool) : List Char → Option (List Char × List Char)
  | c :: '_' :: rest =>
    if isDigit c then (digitRun? isDigit rest).map fun (ds, rest) => (c :: ds, rest) else none
  | c :: d :: rest =>
    if isDigit c then
      if isDigit d then (digitRun? isDigit (d :: rest)).map fun (ds, rest) => (c :: ds, rest)
      else some ([c], d :: rest)
    else none
  | [c] => if isDigit c then some ([c], []) else none
  | [] => none

def wholeDigits? : List Char → Option (List Char × List Char)
  | '0' :: rest => some (['0'], rest)
  | cs => digitRun? Char.isDigit cs

def integer (n : Int) : Option Value :=
  if -2 ^ 63 ≤ n ∧ n < 2 ^ 63 then some (.integer n) else none

def digitValue (c : Char) : Nat :=
  if c.isDigit then c.toNat - '0'.toNat
  else if 'a' ≤ c then c.toNat - 'a'.toNat + 10
  else c.toNat - 'A'.toNat + 10

def isHexDigit (c : Char) : Bool :=
  c.isDigit || ('a' ≤ c && c ≤ 'f') || ('A' ≤ c && c ≤ 'F')

def isOctalDigit (c : Char) : Bool :=
  '0' ≤ c && c ≤ '7'

def isBinaryDigit (c : Char) : Bool :=
  c == '0' || c == '1'

def inBase? (base : Nat) (isDigit : Char → Bool) (cs : List Char) : Option (Value × List Char) := do
  let (ds, rest) ← digitRun? isDigit cs
  some (← integer (ds.foldl (fun n c => n * base + digitValue c) 0 : Nat), rest)

def exponent? (cs : List Char) : Option (Int × List Char) := do
  let (negative, cs) := Decimal.splitSign cs
  let (ds, rest) ← digitRun? Char.isDigit cs
  some (if negative then -(Decimal.digitsValue ds : Int) else Decimal.digitsValue ds, rest)

def optionalExponent? : List Char → Option (Int × List Char)
  | 'e' :: rest => exponent? rest
  | 'E' :: rest => exponent? rest
  | cs => some (0, cs)

def float (negative : Bool) (m : Nat) (e : Int) : Option Value :=
  let x := Decimal.nearestFloat m e
  if negative then some (.float (-x)) else if x.isInf then none else some (.float x)

def decimal? (negative : Bool) (cs : List Char) : Option (Value × List Char) := do
  let (whole, rest) ← wholeDigits? cs
  match rest with
  | '.' :: rest =>
    let (fraction, rest) ← digitRun? Char.isDigit rest
    let (e, rest) ← optionalExponent? rest
    let v ← float negative (Decimal.digitsValue (whole ++ fraction)) (e - fraction.length)
    some (v, rest)
  | c :: rest =>
    if c = 'e' ∨ c = 'E' then
      let (e, rest) ← exponent? rest
      let v ← float negative (Decimal.digitsValue whole) e
      some (v, rest)
    else
      let v ← integer (signed whole)
      some (v, c :: rest)
  | [] =>
    let v ← integer (signed whole)
    some (v, [])
where
  /-- The whole number with its sign. -/
  signed (whole : List Char) : Int :=
    if negative then -(Decimal.digitsValue whole : Int) else Decimal.digitsValue whole

def special? (negative : Bool) : List Char → Option (Value × List Char)
  | 'i' :: 'n' :: 'f' :: rest =>
    some (.float (if negative then -1.0 / 0.0 else 1.0 / 0.0), rest)
  | 'n' :: 'a' :: 'n' :: rest => some (.float (0.0 / 0.0), rest)
  | _ => none

def number? (cs : List Char) : Option (Value × List Char) :=
  match cs with
  | '0' :: 'x' :: rest => inBase? 16 isHexDigit rest
  | '0' :: 'o' :: rest => inBase? 8 isOctalDigit rest
  | '0' :: 'b' :: rest => inBase? 2 isBinaryDigit rest
  | cs =>
    let (negative, body) := Decimal.splitSign cs
    match special? negative body with
    | some result => some result
    | none => decimal? negative body

/-! Dates and times -/

def twoDigits? (low high : Nat) : List Char → Option (Nat × List Char)
  | c :: d :: rest =>
    let n := Decimal.digitsValue [c, d]
    if c.isDigit ∧ d.isDigit ∧ low ≤ n ∧ n ≤ high then some (n, rest) else none
  | _ => none

def after? (c : Char) : List Char → Option (List Char)
  | d :: rest => if c = d then some rest else none
  | [] => none

def daysOfMonth (year month : Nat) : Nat :=
  if month = 2 then
    if year % 4 = 0 ∧ (year % 100 ≠ 0 ∨ year % 400 = 0) then 29 else 28
  else if month = 4 ∨ month = 6 ∨ month = 9 ∨ month = 11 then 30
  else 31

def date? (cs : List Char) : Option (List Char) := do
  let (century, cs) ← twoDigits? 0 99 cs
  let (year, cs) ← twoDigits? 0 99 cs
  let (month, cs) ← twoDigits? 1 12 (← after? '-' cs)
  let (_, cs) ← twoDigits? 1 (daysOfMonth (century * 100 + year) month) (← after? '-' cs)
  some cs

def time? (cs : List Char) : Option (List Char) := do
  let (_, cs) ← twoDigits? 0 23 cs
  let (_, cs) ← twoDigits? 0 59 (← after? ':' cs)
  let (_, cs) ← twoDigits? 0 60 (← after? ':' cs)
  match cs with
  | '.' :: rest =>
    if rest.takeWhile Char.isDigit = [] then some cs else some (rest.dropWhile Char.isDigit)
  | cs => some cs

def offset? : List Char → Option (List Char)
  | 'Z' :: rest => some rest
  | 'z' :: rest => some rest
  | c :: rest => do
    if c ≠ '+' ∧ c ≠ '-' then none
    let (_, rest) ← twoDigits? 0 23 rest
    let (_, rest) ← twoDigits? 0 59 (← after? ':' rest)
    some rest
  | [] => none

def datetimeEnd? (cs : List Char) : Option (List Char) :=
  match date? cs with
  | none => time? cs
  | some rest =>
    match rest with
    | c :: later =>
      if c = 'T' ∨ c = 't' ∨ c = ' ' then
        match time? later with
        | some later => some ((offset? later).getD later)
        | none => some rest
      else some rest
    | [] => some []

def datetime? (cs : List Char) : Option (Value × List Char) :=
  (datetimeEnd? cs).map fun rest =>
    (.datetime (String.ofList (cs.take (cs.length - rest.length))), rest)

def scalarValue? (cs : List Char) : Option (Value × List Char) :=
  match cs with
  | '"' :: _ => (string? cs).map fun (s, rest) => (.string s, rest)
  | '\'' :: _ => (string? cs).map fun (s, rest) => (.string s, rest)
  | 't' :: 'r' :: 'u' :: 'e' :: rest => some (.bool true, rest)
  | 'f' :: 'a' :: 'l' :: 's' :: 'e' :: rest => some (.bool false, rest)
  | cs =>
    match datetime? cs with
    | some result => some result
    | none => number? cs

end Arbor.Toml
