import TableScan.Arithmetic
import TableScan.Floating.Format
import TableScan.Text.Integer

open scoped TableScan.Arithmetic

namespace TableScan.Floating

open Text

variable {f : FloatFormat}

def farExponent : Int := 400

def ofDecimal (negative : Bool) (coefficient : Nat) (exponent : Int) : Floating f :=
  let top := exponent + (Nat.toDigits 10 coefficient).length
  if coefficient = 0 ∨ top < -farExponent then zero negative
  else if farExponent < top then inf negative
  else if 0 ≤ exponent then round negative (coefficient * 10 ^ exponent.toNat) 1
  else round negative coefficient (10 ^ (-exponent).toNat)

def exponent? : List Char → Option Int
  | [] => some 0
  | c :: rest => if c = 'e' ∨ c = 'E' then integer? rest else none

def unsignedOfChars? (negative : Bool) (cs : List Char) : Option (Floating f) := do
  let whole := cs.takeWhile isDigit
  let rest := cs.dropWhile isDigit
  let (decimals, rest) := match rest with
    | '.' :: rest => (rest.takeWhile isDigit, rest.dropWhile isDigit)
    | rest => ([], rest)
  if whole ++ decimals = [] then none
  let e ← exponent? rest
  some (ofDecimal negative (digitsValue (whole ++ decimals)) (e - decimals.length))

def ofChars? (negative : Bool) (cs : List Char) : Option (Floating f) :=
  let name := String.ofList (cs.map Char.toLower)
  if name = "nan" then some (nan negative)
  else if name = "inf" ∨ name = "infinity" then some (inf negative)
  else unsignedOfChars? negative cs

def ofText? (s : String) : Option (Floating f) :=
  match s.toList with
  | '-' :: cs => ofChars? true cs
  | '+' :: cs => ofChars? false cs
  | cs => ofChars? false cs

end TableScan.Floating
