import TableScan.Arithmetic
import TableScan.Json.Number

open scoped TableScan.Arithmetic

namespace TableScan.Json

structure Fault : Type where
  reason : String
  rest : List Char
  placed : Bool
  deriving DecidableEq

abbrev Reader (α : Type) : Type := StateT (List Char) (Except Fault) α

def isSpace (c : Char) : Bool := c = ' ' || c = '\n' || c = '\t' || c = '\r'

def skip (cs : List Char) : List Char := cs.dropWhile isSpace

namespace Reader

variable {α : Type}

def fail (reason : String) : Reader α := fun cs => .error ⟨reason, cs, true⟩

def failNext (reason : String) : Reader α := fun cs => .error ⟨reason, cs.drop 1, true⟩

def failAround (reason : String) : Reader α := fun cs => .error ⟨reason, cs, false⟩

def look : Reader (Option Char) := fun cs => .ok (cs.head?, cs)

def peek : Reader (Option Char) := fun cs => .ok ((skip cs).head?, skip cs)

def advance : Reader Unit := fun cs => .ok ((), cs.drop 1)

def take : Reader (Option Char) := fun cs => .ok (cs.head?, cs.drop 1)

def endedIn (what : String) : String := "EOF while parsing " ++ what

def word : List Char → Reader Unit
  | [] => pure ()
  | c :: rest => do
    match ← take with
    | none => fail (endedIn "a value")
    | some d => if d = c then word rest else fail "expected ident"

def hexValue? (cs : List Char) : Option Nat :=
  cs.foldlM (fun n c => (Text.hexDigit? c).map (16 * n + ·)) 0

def fourDigits : Reader Nat := fun cs =>
  if (cs.take 4).length < 4 then .error ⟨endedIn "a string", [], true⟩
  else
    match hexValue? (cs.take 4) with
    | some n => .ok (n, cs.drop 4)
    | none => .error ⟨"invalid escape", cs.drop 4, true⟩

def pairMark (c : Char) : Reader Unit := do
  match ← take with
  | none => fail (endedIn "a string")
  | some d => if d = c then return else fail "unexpected end of hex escape"

def unicode : Reader Char := do
  let lone := "lone leading surrogate in hex escape"
  let high ← fourDigits
  if 0xdc00 ≤ high ∧ high < 0xe000 then fail lone
  else if 0xd800 ≤ high ∧ high < 0xdc00 then
    pairMark '\\'
    pairMark 'u'
    let low ← fourDigits
    if 0xdc00 ≤ low ∧ low < 0xe000 then
      return Char.ofNat (0x10000 + (high - 0xd800) * 0x400 + (low - 0xdc00))
    else fail lone
  else return Char.ofNat high

def escaped : Reader Char := do
  match ← take with
  | none => fail (endedIn "a string")
  | some '"' => return '"'
  | some '\\' => return '\\'
  | some '/' => return '/'
  | some 'b' => return Char.ofNat 8
  | some 'f' => return Char.ofNat 12
  | some 'n' => return '\n'
  | some 'r' => return '\r'
  | some 't' => return '\t'
  | some 'u' => unicode
  | some _ => fail "invalid escape"

def stringFrom : Nat → List Char → Reader String
  | 0, _ => fail (endedIn "a string")
  | fuel + 1, done => do
    match ← take with
    | none => fail (endedIn "a string")
    | some '"' => return String.ofList done.reverse
    | some '\\' => stringFrom fuel ((← escaped) :: done)
    | some c =>
      if c.toNat < 32 then
        fail "control character (\\u0000-\\u001F) found while parsing a string"
      else stringFrom fuel (c :: done)

def stringBody : Reader String := fun cs => stringFrom (cs.length + 1) [] cs

def digits : Reader (List Char) := fun cs =>
  match cs.takeWhile Text.isDigit with
  | [] => (if cs = [] then fail (endedIn "a value") else failNext "invalid number") cs
  | ds => .ok (ds, cs.dropWhile Text.isDigit)

def whole : Reader (List Char) := do
  match ← look with
  | some '0' =>
    advance
    if (← look).any Text.isDigit then failNext "invalid number" else return ['0']
  | _ => digits

def decimals : Reader (List Char) := do
  if (← look) = some '.' then
    advance
    digits
  else return []

def exponent : Reader (Option Int) := do
  let c ← look
  if c = some 'e' ∨ c = some 'E' then
    advance
    let sign ← look
    if sign = some '+' ∨ sign = some '-' then advance
    let n : Int := Text.digitsValue (← digits)
    return some (if sign = some '-' then -n else n)
  else return none

def number (negative : Bool) : Reader Json := do
  let n : Numeral := ⟨negative, ← whole, ← decimals, ← exponent⟩
  match n.value? with
  | some j => return j
  | none => fail "number out of range"

def hasElement (first : Bool) : Reader Bool := do
  match ← peek with
  | none => failNext (endedIn "a list")
  | some ']' => return false
  | some ',' =>
    if first then return true
    advance
    match ← peek with
    | none => failNext (endedIn "a value")
    | some ']' => failNext "trailing comma"
    | some _ => return true
  | some _ => if first then return true else failNext "expected `,` or `]`"

def hasMember (first : Bool) : Reader Bool := do
  match ← peek with
  | none => failNext (endedIn "an object")
  | some '\x7d' => return false
  | some ',' =>
    if first then failNext "key must be a string"
    advance
    match ← peek with
    | none => failNext (endedIn "a value")
    | some '\x7d' => failNext "trailing comma"
    | some '"' => return true
    | some _ => failNext "key must be a string"
  | some c =>
    if !first then failNext "expected `,` or `\x7d`"
    else if c = '"' then return true
    else failNext "key must be a string"

def key : Reader String := do
  advance
  stringBody

def colon : Reader Unit := do
  match ← peek with
  | none => failNext (endedIn "an object")
  | some ':' => advance
  | some _ => failNext "expected `:`"

def value : Nat → Reader Json
  | 0 => fail (endedIn "a value")
  | fuel + 1 => do
    match ← peek with
    | none => failNext (endedIn "a value")
    | some 'n' => do word ['n', 'u', 'l', 'l']; return .null
    | some 't' => do word ['t', 'r', 'u', 'e']; return .bool true
    | some 'f' => do word ['f', 'a', 'l', 's', 'e']; return .bool false
    | some '-' => do advance; number true
    | some '"' => do advance; return .str (← stringBody)
    | some '[' => do advance; return .arr (← elements fuel true)
    | some '\x7b' => do advance; return .obj (← members fuel true)
    | some c => if Text.isDigit c then number false else failNext "expected value"
where
  elements : Nat → Bool → Reader (List Json)
    | 0, _ => fail (endedIn "a list")
    | fuel + 1, first => do
      if !(← hasElement first) then
        advance
        return []
      let j ← value fuel
      return j :: (← elements fuel false)
  members : Nat → Bool → Reader (List (String × Json))
    | 0, _ => fail (endedIn "an object")
    | fuel + 1, first => do
      if !(← hasMember first) then
        advance
        return []
      let name ← key
      colon
      let j ← value fuel
      return (name, j) :: (← members fuel false)

def fuel : Reader Nat := fun cs => .ok (2 * cs.length + 2, cs)

def anyValue : Reader Json := do value (← fuel)

def placeBehind (cs : List Char) : Nat × Nat :=
  (cs.count '\n' + 1,
    ((cs.reverse.takeWhile (· ≠ '\n')).map Char.utf8Size).sum)

def message (text : List Char) (e : Fault) : String :=
  let (line, column) := placeBehind (text.take (text.length - e.rest.length))
  e.reason ++ " at line " ++ toString line ++ " column " ++ toString column

def ended : Reader Unit := do
  if (← peek).isSome then failNext "trailing characters"

def run (r : Reader α) (text : String) : Except String α :=
  match (do let a ← r; ended; return a : Reader α) text.toList with
  | .ok (a, _) => .ok a
  | .error e => .error (message text.toList e)

end Reader

end TableScan.Json
