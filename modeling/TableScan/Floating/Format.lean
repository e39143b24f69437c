import TableScan.Arithmetic

/-!
Binary floating-point numbers as bit patterns: sign, exponent and fraction, the total order of the
patterns, and the pattern nearest to a fraction of natural numbers.
-/

open scoped TableScan.Arithmetic

namespace TableScan

inductive FloatFormat : Type
  | half | single | double
  deriving DecidableEq

namespace FloatFormat

def fractionBits : FloatFormat → Nat
  | half => 10
  | single => 23
  | double => 52

def exponentBits : FloatFormat → Nat
  | half => 5
  | single => 8
  | double => 11

def width (f : FloatFormat) : Nat := 1 + f.exponentBits + f.fractionBits

def infinity (f : FloatFormat) : Nat := (2 ^ f.exponentBits - 1) * 2 ^ f.fractionBits

def minExponent (f : FloatFormat) : Int := 2 - 2 ^ (f.exponentBits - 1) - f.fractionBits

end FloatFormat

structure Floating (f : FloatFormat) : Type where
  bits : BitVec f.width
  deriving DecidableEq

namespace Floating

variable {f g : FloatFormat}

def signBit (f : FloatFormat) : Nat := 2 ^ (f.width - 1)

def magnitude (x : Floating f) : Nat := x.bits.toNat % signBit f

def negative (x : Floating f) : Bool := signBit f ≤ x.bits.toNat

def ofMagnitude (negative : Bool) (m : Nat) : Floating f :=
  ⟨BitVec.ofNat _ (m % signBit f + if negative then signBit f else 0)⟩

def isNaN (x : Floating f) : Bool := f.infinity < x.magnitude

def isInfinite (x : Floating f) : Bool := x.magnitude == f.infinity

def isFinite (x : Floating f) : Bool := x.magnitude < f.infinity

def isZero (x : Floating f) : Bool := x.magnitude == 0

def nan (negative : Bool) : Floating f :=
  ofMagnitude negative (f.infinity + 2 ^ (f.fractionBits - 1))

def inf (negative : Bool) : Floating f := ofMagnitude negative f.infinity

def zero (negative : Bool) : Floating f := ofMagnitude negative 0

/--
The place in the total order of patterns: negative before positive, and within a sign by
magnitude, so that minus zero is below zero and NaN lies beyond infinity.
-/
def order (x : Floating f) : Int :=
  if x.negative then -(x.magnitude : Int) - 1 else x.magnitude

def compare (x y : Floating f) : Ordering := Ord.compare x.order y.order

def significand (x : Floating f) : Nat × Int :=
  let biased := x.magnitude / 2 ^ f.fractionBits
  let fraction := x.magnitude % 2 ^ f.fractionBits
  if biased = 0 then (fraction, f.minExponent)
  else (fraction + 2 ^ f.fractionBits, f.minExponent + (biased - 1 : Nat))

def roundDiv (num den : Nat) : Nat :=
  let q := num / den
  let r := num % den
  if 2 * r < den then q
  else if den < 2 * r then q + 1
  else if q % 2 = 0 then q else q + 1

def scale (num den : Nat) (e : Int) : Nat × Nat :=
  if 0 ≤ e then (num * 2 ^ e.toNat, den) else (num, den * 2 ^ (-e).toNat)

def log2 (num den : Nat) : Int :=
  let e : Int := num.log2 - den.log2
  let (n, d) := scale num den (-e)
  if d ≤ n then e else e - 1

def roundMagnitude (f : FloatFormat) (num den : Nat) : Nat :=
  if num = 0 then 0
  else
    let q := max (log2 num den - f.fractionBits) f.minExponent
    let (n, d) := scale num den (-q)
    min f.infinity ((q - f.minExponent).toNat * 2 ^ f.fractionBits + roundDiv n d)

def round (negative : Bool) (num den : Nat) : Floating f :=
  ofMagnitude negative (roundMagnitude f num den)

def ofInt (i : Int) : Floating f := round (i < 0) i.natAbs 1

def fraction (x : Floating f) : Nat × Nat :=
  let (m, q) := x.significand
  scale m 1 q

/-- The number in another format; the leading bits of a NaN are kept. -/
def convert (x : Floating f) : Floating g :=
  if x.isNaN then
    let payload := x.magnitude % 2 ^ f.fractionBits
    let kept := payload * 2 ^ g.fractionBits / 2 ^ f.fractionBits
    let quiet := 2 ^ (g.fractionBits - 1)
    ofMagnitude x.negative (g.infinity + (if kept < quiet then kept + quiet else kept))
  else if x.isInfinite then inf x.negative
  else
    let (n, d) := x.fraction
    round x.negative n d

def truncate? (x : Floating f) : Option Int :=
  if x.isFinite then
    let (n, d) := x.fraction
    some (if x.negative then -((n / d : Nat) : Int) else (n / d : Nat))
  else none

end Floating

end TableScan
