import Arbor.Decimal.Parts

/-!
This module contains the shortest decimal of a float: of the decimals that read back as the float, one
with the fewest digits, and of those the nearest.

A float `m * 2 ^ q` is read back from every real between the midpoints to its two neighbours; the
midpoints themselves count when `m` is even. The candidates with a given number of digits are the two
neighbours of the float on that decimal grid.
-/

namespace Arbor.Decimal

structure Scaled where
  digits : Nat
  exponent : Int
  deriving Repr, DecidableEq

def Scaled.strip (d : Scaled) : Scaled :=
  go d.digits d
where
  go : Nat → Scaled → Scaled
    | 0, d => d
    | fuel + 1, d =>
      if d.digits ≠ 0 ∧ d.digits % 10 = 0 then go fuel ⟨d.digits / 10, d.exponent + 1⟩ else d

structure Ratio where
  num : Nat
  den : Nat

namespace Ratio

def binary (n : Nat) (e : Int) : Ratio :=
  if 0 ≤ e then ⟨n * 2 ^ e.toNat, 1⟩ else ⟨n, 2 ^ (-e).toNat⟩

def perTen (r : Ratio) (k : Int) : Ratio :=
  if 0 ≤ k then ⟨r.num, r.den * 10 ^ k.toNat⟩ else ⟨r.num * 10 ^ (-k).toNat, r.den⟩

def floor (r : Ratio) : Nat :=
  r.num / r.den

def lt (a b : Ratio) : Bool :=
  a.num * b.den < b.num * a.den

def le (a b : Ratio) : Bool :=
  a.num * b.den ≤ b.num * a.den

def leading (r : Ratio) : Int :=
  if r.den ≤ r.num then ((Nat.toDigits 10 r.floor).length : Int) - 1 else go 400 1
where
  /-- The least `k` from the given one on with `1 ≤ r * 10 ^ k`, negated. -/
  go : Nat → Nat → Int
    | 0, k => -k
    | fuel + 1, k => if r.den ≤ r.num * 10 ^ k then -k else go fuel (k + 1)

end Ratio

/--
The reals that read back as one float.
-/
structure Cell where
  low : Ratio
  value : Ratio
  high : Ratio
  closed : Bool

/--
The cell of `m * 2 ^ q` for `0 < m`. Below a power of two the neighbour is half as far away.
-/
def Cell.of (m : Nat) (q : Int) : Cell :=
  let below := if m = 2 ^ 52 ∧ -1074 < q then 1 else 2
  { low := .binary (4 * m - below) (q - 2)
    value := .binary (4 * m) (q - 2)
    high := .binary (4 * m + 2) (q - 2)
    closed := m % 2 == 0 }

def Cell.has (c : Cell) (d : Scaled) : Bool :=
  let r := Ratio.perTen ⟨d.digits, 1⟩ (-d.exponent)
  if c.closed then c.low.le r && r.le c.high else c.low.lt r && r.lt c.high

/--
The decimal of the cell on the grid `10 ^ k` that is nearest to its value, if there is one; of two equally
near ones the larger.
-/
def Cell.onGrid? (c : Cell) (k : Int) : Option Scaled :=
  let scaled := c.value.perTen k
  let lower : Scaled := ⟨scaled.floor, k⟩
  let upper : Scaled := ⟨scaled.floor + 1, k⟩
  let roundsDown := 2 * (scaled.num % scaled.den) < scaled.den
  match c.has lower, c.has upper with
  | true, true => some (if roundsDown then lower else upper)
  | true, false => some lower
  | false, true => some upper
  | false, false => none

/--
The shortest decimal of `m * 2 ^ q`. Seventeen digits are enough for every float, so the last grid is
always hit.
-/
def shortest (m : Nat) (q : Int) : Scaled :=
  if m = 0 then ⟨0, 0⟩
  else
    let c := Cell.of m q
    let top := c.value.leading
    go c top 1 17
where
  /-- Try the grids from `count` digits on. -/
  go (c : Cell) (top : Int) : Nat → Nat → Scaled
    | count, 0 => ⟨(c.value.perTen (top + 1 - count)).floor, top + 1 - count⟩
    | count, fuel + 1 =>
      match c.onGrid? (top + 1 - count) with
      | some d => d.strip
      | none => go c top (count + 1) fuel

end Arbor.Decimal
