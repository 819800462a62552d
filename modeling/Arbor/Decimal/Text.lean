import Arbor.Decimal.Shortest

/-!
This module contains the texts of floats. Both forms write the shortest digits that read back; they differ
in whether a whole number keeps a `.0` and whether very large and very small numbers get an exponent.
-/

namespace Arbor.Decimal

def Scaled.positional (d : Scaled) : String :=
  if 0 ≤ d.exponent then
    toString d.digits ++ String.ofList (List.replicate d.exponent.toNat '0')
  else
    let places := (-d.exponent).toNat
    let ds := Nat.toDigits 10 d.digits
    let ds := List.replicate (places + 1 - ds.length) '0' ++ ds
    String.ofList (ds.take (ds.length - places) ++ '.' :: ds.drop (ds.length - places))

def Scaled.scientific (d : Scaled) : String :=
  match Nat.toDigits 10 d.digits with
  | [] => "0"
  | lead :: rest =>
    let fraction := if rest.isEmpty then [] else '.' :: rest
    String.ofList (lead :: fraction) ++ "e" ++ toString (d.exponent + rest.length)

structure FloatForm where
  wholeMark : Bool
  /-- The leading exponents written without an exponent, both ends included; all of them if absent. -/
  positional : Option (Int × Int)

/--
The form in which a program prints a float: never an exponent, and no mark on whole numbers.
-/
def FloatForm.printed : FloatForm := ⟨false, none⟩

/--
The form that tells a float from an int: `.0` on whole numbers, and an exponent from `1e16` on and below
`1e-4`.
-/
def FloatForm.marked : FloatForm := ⟨true, some (-4, 15)⟩

def FloatForm.text (form : FloatForm) (x : Float) : String :=
  match Parts.of x with
  | .nan => "NaN"
  | .infinite negative => if negative then "-inf" else "inf"
  | .finite negative m q =>
    let d := shortest m q
    let lead := d.exponent + (Nat.toDigits 10 d.digits).length - 1
    let positional := m = 0 || match form.positional with
      | none => true
      | some (least, greatest) => least ≤ lead && lead ≤ greatest
    let text :=
      if positional then
        if form.wholeMark && 0 ≤ d.exponent then d.positional ++ ".0" else d.positional
      else d.scientific
    if negative then "-" ++ text else text

end Arbor.Decimal
