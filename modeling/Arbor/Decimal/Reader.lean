import Arbor.Power

/-!
This module contains the reading of numbers from text: whole numbers, and floats in positional or
scientific writing with the words for infinity and for what is not a number.
-/

namespace Arbor.Decimal

def digitsValue (cs : List Char) : Nat :=
  cs.foldl (fun n c => n * 10 + (c.toNat - '0'.toNat)) 0

def splitSign : List Char → Bool × List Char
  | '-' :: rest => (true, rest)
  | '+' :: rest => (false, rest)
  | rest => (false, rest)

def readInt? (cs : List Char) : Option Int :=
  let (negative, ds) := splitSign cs
  if ds.isEmpty || !ds.all Char.isDigit then none
  else some (if negative then -(digitsValue ds : Int) else digitsValue ds)

/--
The float nearest to `m * 10 ^ e`, a tie going to the even neighbour. Exponents far outside the range of
floats are settled without computing the power.
-/
def nearestFloat (m : Nat) (e : Int) : Float :=
  if m = 0 then 0.0
  else
    let lead := e + (Nat.toDigits 10 m).length
    if 320 < lead then 1.0 / 0.0
    else if lead < -340 then 0.0
    else if 0 ≤ e then Float.ofScientific m false e.toNat
    else Float.ofScientific m true (-e).toNat

def readExponent? : List Char → Option Int
  | [] => some 0
  | c :: rest => if c = 'e' ∨ c = 'E' then readInt? rest else none

def readUnsigned? (cs : List Char) : Option (Nat × Int) :=
  let whole := cs.takeWhile Char.isDigit
  let (fraction, rest) := match cs.dropWhile Char.isDigit with
    | '.' :: rest => (rest.takeWhile Char.isDigit, rest.dropWhile Char.isDigit)
    | rest => ([], rest)
  if whole.isEmpty && fraction.isEmpty then none
  else (readExponent? rest).map fun e => (digitsValue (whole ++ fraction), e - fraction.length)

/--
A float: an optional sign, then a number or one of the words `inf`, `infinity` and `nan` in any case.
-/
def readFloat? (cs : List Char) : Option Float :=
  let (negative, body) := splitSign cs
  let word := String.ofList (body.map Char.toLower)
  let magnitude? :=
    if word = "inf" ∨ word = "infinity" then some (1.0 / 0.0)
    else if word = "nan" then some (0.0 / 0.0)
    else (readUnsigned? body).map fun (m, e) => nearestFloat m e
  magnitude?.map fun x => if negative then -x else x

end Arbor.Decimal
