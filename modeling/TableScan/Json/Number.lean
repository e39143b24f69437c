import TableScan.Arithmetic
import TableScan.Floating.Reader
import TableScan.Json

open scoped TableScan.Arithmetic

namespace TableScan

namespace Floating

variable {f : FloatFormat}

def times (x y : Floating f) : Floating f :=
  round false (x.fraction.1 * y.fraction.1) (x.fraction.2 * y.fraction.2)

def quotient (x y : Floating f) : Floating f :=
  round false (x.fraction.1 * y.fraction.2) (x.fraction.2 * y.fraction.1)

def withSign (negative : Bool) (x : Floating f) : Floating f := ofMagnitude negative x.magnitude

end Floating

namespace Json

def powerLimit : Nat := 308

def power (e : Nat) : Floating .double := .ofDecimal false 1 e

def scale? : Nat → Floating .double → Int → Option (Floating .double)
  | 0, x, _ => some x
  | steps + 1, x, e =>
    if x.isZero then some x
    else if e < -powerLimit then scale? steps (x.quotient (power powerLimit)) (e + powerLimit)
    else if e < 0 then some (x.quotient (power (-e).toNat))
    else if e ≤ powerLimit then
      let y := x.times (power e.toNat)
      if y.isFinite then some y else none
    else none

def absorb : Nat → List Char → Nat × Nat
  | n, [] => (n, 0)
  | n, c :: cs =>
    let m := Text.digitsValue [c] + 10 * n
    if m < 2 ^ (64 : Nat) then
      let (m, taken) := absorb m cs
      (m, taken + 1)
    else (n, 0)

structure Numeral : Type where
  negative : Bool
  whole : List Char
  decimals : List Char
  exponent : Option Int

namespace Numeral

def parts (n : Numeral) : Nat × Int :=
  let (value, whole) := absorb 0 n.whole
  let (value, decimals) := absorb value n.decimals
  (value, (n.exponent.getD 0) + (n.whole.length - whole : Nat) - decimals)

def integer? (n : Numeral) : Option Int :=
  let value := Text.digitsValue n.whole
  if n.decimals ≠ [] ∨ n.exponent.isSome then none
  else if n.negative then if 0 < value ∧ value ≤ 2 ^ (63 : Nat) then some (-value) else none
  else if value < 2 ^ (64 : Nat) then some value else none

def value? (n : Numeral) : Option Json :=
  match n.integer? with
  | some i => some (.int i)
  | none =>
    let (value, e) := n.parts
    (scale? 4 (.ofInt value) e).map fun x => .float (x.withSign n.negative)

end Numeral

end Json

end TableScan
