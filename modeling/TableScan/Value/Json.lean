import TableScan.Value
import TableScan.Json.Record

namespace TableScan

def ScalarType.tag (t : ScalarType) : String :=
  match t.text.toList with
  | c :: cs => String.ofList (c.toLower :: cs)
  | [] => ""

def ScalarType.role : ScalarType → String
  | .date32 => "days"
  | .date64 => "milliseconds"
  | _ => "value"

namespace Scalar

def carrierText : (t : ScalarType) → t.Carrier → String
  | .null, x => nomatch x
  | .boolean, b => if b then "true" else "false"
  | .int _, i => toString i.val
  | .float32, x => Json.floating (f := .single) x
  | .float64, x => Json.floating (f := .double) x
  | .utf8, s | .largeUtf8, s => Json.quote s
  | .binary, b => "[" ++ ",".intercalate (b.map fun b => toString b.toNat) ++ "]"
  | .date32, d => toString (Fixed.val d)
  | .date64, d => toString (Fixed.val d)

def json (s : Scalar) : String :=
  if s.type = .null then Json.quote s.type.tag
  else
    let value := (s.value.map (carrierText s.type)).getD "null"
    Json.braces [Json.quote s.type.tag ++ ":" ++
      Json.braces [Json.quote s.type.role ++ ":" ++ value]]

def carrierReader : (t : ScalarType) → Json.Reader t.Carrier
  | .null => .fail "no value"
  | .boolean => .bool
  | .int t => .fixed t t.text
  | .float32 => .float .single
  | .float64 => .float .double
  | .utf8 => .str
  | .largeUtf8 => .str
  | .binary => .list do return (← .fixed .uint8 "a byte").val.toNat.toUInt8
  | .date32 => .fixed .int32 "days"
  | .date64 => .fixed .int64 "milliseconds"

def valueReader (t : ScalarType) : Json.Reader Scalar := do
  let part : Json.Part (Option (Option t.Carrier)) :=
    ⟨t.role, fun _ => some <$> .option (carrierReader t)⟩
  let asArray := (← Json.Reader.peek) = some '['
  match ← Json.Reader.record t.text [part] none with
  | some v => return ⟨t, v⟩
  | none => if asArray then .failAround "invalid length 0" else return ⟨t, none⟩

def variants : List (Json.Variant Scalar) :=
  ScalarType.all.map fun t =>
    if t = .null then .plain t.tag .null else .holding t.tag (valueReader t)

def reader : Json.Reader Scalar := .variant variants

end Scalar

end TableScan
