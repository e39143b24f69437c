import TableScan.Floating.Shortest

namespace TableScan.Floating

structure Layout : Type where
  positional : Int → Bool
  whole : String
  plus : String

namespace Layout

def plain : Layout := ⟨fun _ => true, "", ""⟩

def cell : FloatFormat → Layout
  | .single => ⟨fun e => -6 ≤ e && e ≤ 12, ".0", ""⟩
  | _ => ⟨fun e => -5 ≤ e && e ≤ 15, ".0", ""⟩

def message : Layout := ⟨fun e => -4 ≤ e && e ≤ 15, ".0", ""⟩

def json (f : FloatFormat) : Layout := { cell f with plus := "+" }

end Layout

def zeros (n : Nat) : String := String.ofList (List.replicate n '0')

def Layout.decimal (l : Layout) (d : Decimal) : String :=
  let digits := Nat.toDigits 10 d.coefficient
  let e := d.leading
  if l.positional e then
    if 0 ≤ d.exponent then String.ofList digits ++ zeros d.exponent.toNat ++ l.whole
    else if 0 ≤ e then
      String.ofList (digits.take (e + 1).toNat) ++ "." ++ String.ofList (digits.drop (e + 1).toNat)
    else "0." ++ zeros (-e - 1).toNat ++ String.ofList digits
  else
    let mantissa := match digits with
      | [] => ""
      | [c] => c.toString
      | c :: rest => c.toString ++ "." ++ String.ofList rest
    mantissa ++ "e" ++ (if 0 ≤ e then l.plus else "") ++ toString e

variable {f : FloatFormat}

def text (l : Layout) (x : Floating f) : String :=
  if x.isNaN then "NaN"
  else
    let sign := if x.negative then "-" else ""
    if x.isInfinite then sign ++ "inf"
    else if x.isZero then sign ++ "0" ++ l.whole
    else sign ++ l.decimal x.shortest

end TableScan.Floating
