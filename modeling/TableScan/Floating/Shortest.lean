import TableScan.Arithmetic
import TableScan.Floating.Format

open scoped TableScan.Arithmetic

namespace TableScan

structure Decimal : Type where
  coefficient : Nat
  exponent : Int
  deriving DecidableEq

namespace Decimal

def leading (d : Decimal) : Int := d.exponent + (Nat.toDigits 10 d.coefficient).length - 1

def trim : Nat → Decimal → Decimal
  | 0, d => d
  | fuel + 1, d =>
    if d.coefficient % 10 = 0 then trim fuel ⟨d.coefficient / 10, d.exponent + 1⟩ else d

end Decimal

namespace Floating

/-- The decimals that round to a number: `low / unit` to `high / unit` around `value / unit`. -/
structure Interval : Type where
  low : Nat
  value : Nat
  high : Nat
  unit : Nat
  closed : Bool

variable {f : FloatFormat}

/-- The ends lie halfway to the neighbours; they count when the last bit of the number is even. -/
def interval (x : Floating f) : Interval :=
  let (m, q) := x.significand
  let down := if m = 2 ^ f.fractionBits ∧ f.minExponent < q then 1 else 2
  let (s, unit) := scale 1 1 (q - 2)
  ⟨(4 * m - down) * s, 4 * m * s, (4 * m + 2) * s, unit, m % 2 = 0⟩

namespace Interval

def leading (i : Interval) : Int :=
  let e : Int := (Nat.toDigits 10 i.value).length - (Nat.toDigits 10 i.unit).length
  if 0 ≤ e then if i.unit * 10 ^ e.toNat ≤ i.value then e else e - 1
  else if i.unit ≤ i.value * 10 ^ (-e).toNat then e else e - 1

def sides (i : Interval) (d : Decimal) : Nat × Nat :=
  if 0 ≤ d.exponent then (d.coefficient * 10 ^ d.exponent.toNat * i.unit, 1)
  else (d.coefficient * i.unit, 10 ^ (-d.exponent).toNat)

def mem (i : Interval) (d : Decimal) : Bool :=
  let (x, s) := i.sides d
  if i.closed then i.low * s ≤ x && x ≤ i.high * s else i.low * s < x && x < i.high * s

def distance (i : Interval) (d : Decimal) : Nat :=
  let (x, s) := i.sides d
  if x ≤ i.value * s then i.value * s - x else x - i.value * s

def floor (i : Interval) (exponent : Int) : Decimal :=
  if 0 ≤ exponent then ⟨i.value / (i.unit * 10 ^ exponent.toNat), exponent⟩
  else ⟨i.value * 10 ^ (-exponent).toNat / i.unit, exponent⟩

def onGrid? (i : Interval) (exponent : Int) : Option Decimal :=
  let below := i.floor exponent
  let above : Decimal := ⟨below.coefficient + 1, exponent⟩
  match i.mem below && 0 < below.coefficient, i.mem above with
  | true, true => if i.distance below ≤ i.distance above then some below else some above
  | true, false => some below
  | false, true => some above
  | false, false => none

def search (i : Interval) : Nat → Int → Decimal
  | 0, exponent => i.floor exponent
  | tries + 1, exponent => (i.onGrid? exponent).getD (search i tries (exponent - 1))

end Interval

def shortest (x : Floating f) : Decimal :=
  let i := x.interval
  (i.search 17 i.leading).trim 17

end Floating

end TableScan
