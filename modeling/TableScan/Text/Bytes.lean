namespace TableScan.Text

def utf8 (s : String) : List UInt8 := s.toList.flatMap String.utf8EncodeChar

def digit (n : Nat) : Char := Char.ofNat (if n < 10 then 48 + n else 87 + n)

def upperDigit (n : Nat) : Char := Char.ofNat (if n < 10 then 48 + n else 55 + n)

def hex (bytes : List UInt8) : String :=
  String.ofList (bytes.flatMap fun b => [digit (b.toNat / 16), digit (b.toNat % 16)])

def hexDigit? (c : Char) : Option Nat :=
  if '0' ≤ c ∧ c ≤ '9' then some (c.toNat - 48)
  else if 'a' ≤ c ∧ c ≤ 'f' then some (c.toNat - 87)
  else if 'A' ≤ c ∧ c ≤ 'F' then some (c.toNat - 55)
  else none

def ofHexChars? : List Char → Option (List UInt8)
  | [] => some []
  | a :: b :: rest => do
    let x ← hexDigit? a
    let y ← hexDigit? b
    let bytes ← ofHexChars? rest
    some ((16 * x + y).toUInt8 :: bytes)
  | [_] => none

def ofHex? (s : String) : Option (List UInt8) := ofHexChars? s.toList

/-- Where bytes stop being UTF-8, and how many bytes are wrong there: none when the text is cut
short. -/
structure Malformed : Type where
  position : Nat
  length : Option Nat
  deriving DecidableEq

def continuation? (b : UInt8) : Option (Nat × UInt8 × UInt8) :=
  if 0xc2 ≤ b ∧ b ≤ 0xdf then some (1, 0x80, 0xbf)
  else if b = 0xe0 then some (2, 0xa0, 0xbf)
  else if b = 0xed then some (2, 0x80, 0x9f)
  else if 0xe1 ≤ b ∧ b ≤ 0xef then some (2, 0x80, 0xbf)
  else if b = 0xf0 then some (3, 0x90, 0xbf)
  else if 0xf1 ≤ b ∧ b ≤ 0xf3 then some (3, 0x80, 0xbf)
  else if b = 0xf4 then some (3, 0x80, 0x8f)
  else none

structure Partial : Type where
  code : Nat
  missing : Nat
  low : UInt8
  high : UInt8
  seen : Nat

def decodeFrom : Nat → Option Partial → List UInt8 → Except Malformed (List Char)
  | _, none, [] => .ok []
  | start, some _, [] => .error ⟨start, none⟩
  | start, none, b :: rest =>
    if b < 0x80 then (Char.ofNat b.toNat :: ·) <$> decodeFrom (start + 1) none rest
    else
      match continuation? b with
      | none => .error ⟨start, some 1⟩
      | some (n, low, high) =>
        let bits := if n = 1 then b.toNat % 32 else if n = 2 then b.toNat % 16 else b.toNat % 8
        decodeFrom start (some ⟨bits, n, low, high, 1⟩) rest
  | start, some p, b :: rest =>
    if p.low ≤ b ∧ b ≤ p.high then
      let code := 64 * p.code + b.toNat % 64
      if p.missing = 1 then
        (Char.ofNat code :: ·) <$> decodeFrom (start + p.seen + 1) none rest
      else decodeFrom start (some ⟨code, p.missing - 1, 0x80, 0xbf, p.seen + 1⟩) rest
    else .error ⟨start, some p.seen⟩

def decode (bytes : List UInt8) : Except Malformed String :=
  String.ofList <$> decodeFrom 0 none bytes

def Malformed.message (m : Malformed) : String :=
  match m.length with
  | some n => s!"invalid utf-8 sequence of {n} bytes from index {m.position}"
  | none => s!"incomplete utf-8 byte sequence from index {m.position}"

end TableScan.Text
