import TableScan.IntType
import TableScan.Json.Reader
import TableScan.Text.Quoted

namespace TableScan.Json

def shown : Json → String
  | null => "null"
  | bool b => "boolean `" ++ (if b then "true" else "false") ++ "`"
  | int i => "integer `" ++ toString i ++ "`"
  | float x => "floating point `" ++ floating x ++ "`"
  | str s => "string " ++ Text.quoted s
  | arr _ => "sequence"
  | obj _ => "map"

def mismatch (found : String) (expected : String) : String :=
  "invalid type: " ++ found ++ ", expected " ++ expected

def missingField (name : String) : String := "missing field `" ++ name ++ "`"

def duplicateField (name : String) : String := "duplicate field `" ++ name ++ "`"

def choice : List String → String
  | [a] => "`" ++ a ++ "`"
  | [a, b] => "`" ++ a ++ "` or `" ++ b ++ "`"
  | names => "one of " ++ ", ".intercalate (names.map fun a => "`" ++ a ++ "`")

def unknownVariant (name : String) (names : List String) : String :=
  "unknown variant `" ++ name ++ "`, expected " ++ choice names

namespace Reader

variable {α : Type}

def unexpected (expected : String) : Reader α := do
  match ← peek with
  | some '[' => fail (mismatch "sequence" expected)
  | some '\x7b' => fail (mismatch "map" expected)
  | _ => do
    let j ← value 1
    fail (mismatch j.shown expected)

def bool : Reader Bool := do
  match ← peek with
  | some 't' => do word ['t', 'r', 'u', 'e']; return true
  | some 'f' => do word ['f', 'a', 'l', 's', 'e']; return false
  | _ => unexpected "a boolean"

def text (expected : String) : Reader String := do
  match ← peek with
  | some '"' => do advance; stringBody
  | _ => unexpected expected

def str : Reader String := text "a string"

def anyNumber (expected : String) : Reader Json := do
  match ← peek with
  | some '-' => do advance; number true
  | some c => if Text.isDigit c then number false else unexpected expected
  | none => unexpected expected

def fixed (t : IntType) (expected : String) : Reader (Fixed t) := do
  match ← anyNumber expected with
  | .int i =>
    match Fixed.ofInt? t i with
    | some n => return n
    | none => fail ("invalid value: " ++ (Json.int i).shown ++ ", expected " ++ expected)
  | j => fail (mismatch j.shown expected)

def size : Reader Nat := do return (← fixed .uint64 "usize").val.toNat

def float (f : FloatFormat) : Reader (Floating f) := do
  match ← anyNumber "a number" with
  | .int i => return .ofInt i
  | .float x => return x.convert
  | j => fail (mismatch j.shown "a number")

def option (r : Reader α) : Reader (Option α) := do
  match ← peek with
  | some 'n' => do word ['n', 'u', 'l', 'l']; return none
  | _ => some <$> r

def listFrom (r : Reader α) : Nat → Bool → Reader (List α)
  | 0, _ => fail (endedIn "a list")
  | fuel + 1, first => do
    if !(← hasElement first) then
      advance
      return []
    let a ← r
    return a :: (← listFrom r fuel false)

def list (r : Reader α) : Reader (List α) := do
  match ← peek with
  | some '[' => do advance; listFrom r (← fuel) true
  | _ => unexpected "a sequence"

def unit : Reader Unit := do
  match ← peek with
  | some 'n' => word ['n', 'u', 'l', 'l']
  | _ => unexpected "unit"

def behind (close : Char) (cs : List Char) : List Char :=
  match skip cs with
  | ',' :: rest => if close = ']' then skip rest else ',' :: rest
  | c :: rest => if c = close then rest else c :: rest
  | [] => []

def enclosed (close : Char) (r : Reader α) : Reader α := fun cs =>
  match r cs with
  | .ok a => .ok a
  | .error e =>
    .error (if e.placed then e else { e with rest := behind close e.rest, placed := true })

def closeArray : Reader Unit := do
  match ← peek with
  | some ']' => advance
  | some ',' =>
    advance
    match ← peek with
    | some ']' => failNext "trailing comma"
    | _ => failNext "trailing characters"
  | some _ => failNext "trailing characters"
  | none => failNext (endedIn "a list")

end Reader

structure Part (σ : Type) : Type where
  name : String
  read : σ → Reader σ

namespace Reader

variable {σ α : Type}

def partsByName (parts : List (Part σ)) : Nat → List String → σ → Reader σ
  | 0, _, _ => fail (endedIn "an object")
  | fuel + 1, met, s => do
    if !(← hasMember met.isEmpty) then
      advance
      return s
    let name ← key
    match parts.find? (·.name = name) with
    | some p =>
      if met.contains name then failAround (duplicateField name)
      colon
      partsByName parts fuel (name :: met) (← p.read s)
    | none =>
      colon
      let _ ← anyValue
      partsByName parts fuel (name :: met) s

def partsInOrder : List (Part σ) → Bool → σ → Reader σ
  | [], _, s => return s
  | p :: rest, first, s => do
    if ← hasElement first then partsInOrder rest false (← p.read s) else return s

def record (type : String) (parts : List (Part σ)) (start : σ) : Reader σ := do
  match ← peek with
  | some '\x7b' => enclosed '\x7d' do
    advance
    partsByName parts (← fuel) [] start
  | some '[' => enclosed ']' do
    advance
    let s ← partsInOrder parts true start
    closeArray
    return s
  | _ => unexpected ("struct " ++ type)

end Reader

inductive Variant (α : Type) : Type
  | plain : String → α → Variant α
  | holding : String → Reader α → Variant α

namespace Variant

variable {α : Type}

def name : Variant α → String
  | plain name _ | holding name _ => name

def detail : Variant α → Reader α
  | plain _ a => do Reader.unit; return a
  | holding _ r => r

end Variant

namespace Reader

variable {α : Type}

def variantName (variants : List (Variant α)) : Reader (Variant α) := do
  let name ← text "variant identifier"
  match variants.find? (·.name = name) with
  | some v => return v
  | none => fail (unknownVariant name (variants.map (·.name)))

def variant (variants : List (Variant α)) : Reader α := do
  match ← peek with
  | some '"' =>
    match ← variantName variants with
    | .plain _ a => return a
    | .holding _ _ => failAround (mismatch "unit variant" "newtype variant")
  | some '\x7b' =>
    advance
    let v ← variantName variants
    colon
    let a ← v.detail
    match ← peek with
    | some '\x7d' => do advance; return a
    | some _ => fail "expected value"
    | none => fail (endedIn "an object")
  | some _ => failNext "expected value"
  | none => failNext (endedIn "a value")

end Reader

end TableScan.Json
