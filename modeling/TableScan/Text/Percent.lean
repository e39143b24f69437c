import TableScan.Text.Bytes

namespace TableScan.Text.Percent

def escape (b : UInt8) : List Char :=
  ['%', upperDigit (b.toNat / 16), upperDigit (b.toNat % 16)]

def encode (plain : Char → Bool) (s : String) : String :=
  String.ofList ((utf8 s).flatMap fun b =>
    let c := Char.ofNat b.toNat
    if b < 0x80 ∧ plain c then [c] else escape b)

/-- The bytes of a text, with its escapes resolved. A `%` without two digits stands for itself. -/
def decodeBytes : List Char → List UInt8
  | '%' :: a :: b :: rest =>
    match hexDigit? a, hexDigit? b with
    | some x, some y => (16 * x + y).toUInt8 :: decodeBytes rest
    | _, _ => 0x25 :: decodeBytes (a :: b :: rest)
  | c :: rest => String.utf8EncodeChar c ++ decodeBytes rest
  | [] => []

def decode? (cs : List Char) : Option String := (decode (decodeBytes cs)).toOption

def isUnreserved (c : Char) : Bool :=
  c.isAlphanum || c = '-' || c = '.' || c = '_' || c = '~'

end TableScan.Text.Percent
