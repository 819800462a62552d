import Arbor.Power

/-!
This module contains the parts of a binary64 number: its sign, and its magnitude as a whole number times a
power of two. Exact questions about floats, such as their remainder and their shortest decimal, are asked
about the parts.
-/

namespace Arbor.Decimal

/--
What a binary64 number is. A finite one is `mantissa * 2 ^ exponent` with `mantissa < 2 ^ 53`, less its
sign.
-/
inductive Parts where
  | nan
  | infinite (negative : Bool)
  | finite (negative : Bool) (mantissa : Nat) (exponent : Int)
  deriving Repr, DecidableEq

def Parts.ofBits (bits : UInt64) : Parts :=
  let n := bits.toNat
  let negative := 2 ^ 63 ≤ n
  let biased : Nat := n / 2 ^ 52 % 2 ^ 11
  let fraction := n % 2 ^ 52
  if biased = 2047 then
    if fraction = 0 then .infinite negative else .nan
  else if biased = 0 then .finite negative fraction (-1074)
  else .finite negative (2 ^ 52 + fraction) (biased - 1075)

def Parts.of (x : Float) : Parts :=
  .ofBits x.toBits

def exactFloat (negative : Bool) (mantissa : Nat) (exponent : Int) : Float :=
  let x := (Float.ofNat mantissa).scaleB exponent
  if negative then -x else x

/--
The exact remainder of a division rounded toward zero; it has the sign of the dividend. It is not a number
when the dividend is infinite or the divisor is zero, and the dividend itself when the divisor is infinite.
-/
def remainder (x y : Float) : Float :=
  match Parts.of x, Parts.of y with
  | .finite negative mx ex, .finite _ my ey =>
    if my = 0 then 0.0 / 0.0
    else
      let e := min ex ey
      let r := (mx * 2 ^ (ex - e).toNat) % (my * 2 ^ (ey - e).toNat)
      exactFloat negative r e
  | .finite .., .infinite _ => x
  | _, _ => 0.0 / 0.0

end Arbor.Decimal
