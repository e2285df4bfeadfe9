/-
  SlotCode.Arith.Shortest — the fewest decimal digits that read back as a given word.

  The numbers that round to a finite word `m · 2^q` form an interval around it: half a
  unit up, half a unit down, a quarter where the words below are twice as dense, and the
  ends belong to it when `m` is even. For one digit, two digits and so on the two
  neighbours of the word on that decimal grid are tried; the first grid with a neighbour
  in the interval wins, the nearer neighbour of two, the upper one of two equally near.
  All comparisons are between naturals.
-/

import SlotCode.Arith.Binary

namespace SlotCode.Arith

def pow10 (k : Nat) : Nat := Nat.pow 10 k

/-- `digits · 10^exponent`. -/
structure Decimal where
  digits : Nat
  exponent : Int
  deriving DecidableEq, Repr

/-- A word and the ends of its interval over one denominator. -/
structure Interval where
  low : Nat
  value : Nat
  high : Nat
  scale : Nat
  closed : Bool
  deriving Repr

namespace Interval

/-- The interval of `m · 2^q`; `dense` when the words below lie half as far apart. -/
def ofBinary (m : Nat) (q : Int) (dense : Bool) : Interval :=
  let up := pow2 (q - 2).toNat
  { low := (4 * m - if dense then 1 else 2) * up
    value := 4 * m * up
    high := (4 * m + 2) * up
    scale := pow2 (2 - q).toNat
    closed := m % 2 == 0 }

/-- The interval in units of `10^e`. -/
def inUnits (i : Interval) (e : Int) : Interval :=
  let f := pow10 (-e).toNat
  { i with low := i.low * f, value := i.value * f, high := i.high * f, scale := i.scale * pow10 e.toNat }

def contains (i : Interval) (n : Nat) : Bool :=
  if i.closed then i.low ≤ n * i.scale && n * i.scale ≤ i.high
  else i.low < n * i.scale && n * i.scale < i.high

/-- The better of the two neighbours of the value among the whole units, if one is inside. -/
def neighbour? (i : Interval) : Option Nat :=
  let n := i.value / i.scale
  match i.contains n, i.contains (n + 1) with
  | true, true => some (if 2 * (i.value % i.scale) < i.scale then n else n + 1)
  | true, false => some n
  | false, true => some (n + 1)
  | false, false => none

end Interval

/-- How many decimal digits a natural has. -/
def decimalLength (n : Nat) : Nat := (Nat.toDigits 10 n).length

/-- The `k` with `10^(k-1) ≤ value / scale < 10^k`, for a value above zero. -/
def pointPosition (value scale : Nat) : Int :=
  if scale ≤ value then decimalLength (value / scale)
  else 1 - (decimalLength ((scale - 1) / value) : Int)

/-- The number without the trailing zeros of its digits. -/
def Decimal.strip (d : Decimal) : Decimal :=
  let zeros := ((Nat.toDigits 10 d.digits).reverse.takeWhile (· == '0')).length
  if d.digits = 0 then d else ⟨d.digits / pow10 zeros, d.exponent + zeros⟩

/-- Seventeen digits tell all words of both formats apart, so the search ends there. -/
def Interval.shortest (i : Interval) : Decimal :=
  let point := pointPosition i.value i.scale
  let attempt (n : Nat) : Option Decimal :=
    let e := point - (n + 1)
    (i.inUnits e).neighbour?.map (⟨·, e⟩)
  (((List.range 17).findSome? attempt).getD ⟨i.value / i.scale, 0⟩).strip

/-- The shortest decimal of the finite word `m · 2^q` of format `f`. -/
def Format.shortest (f : Format) (m : Nat) (q : Int) : Decimal :=
  if m = 0 then ⟨0, 0⟩
  else (Interval.ofBinary m q (m == pow2 f.fractionBits && f.minExponent < q)).shortest

end SlotCode.Arith
