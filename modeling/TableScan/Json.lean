import TableScan.Floating.Text
import TableScan.Text.Bytes

namespace TableScan

inductive Json : Type
  | null
  | bool : Bool → Json
  | int : Int → Json
  | float : Floating .double → Json
  | str : String → Json
  | arr : List Json → Json
  | obj : List (String × Json) → Json

namespace Json

def escape (c : Char) : String :=
  if c = '"' then "\\\""
  else if c = '\\' then "\\\\"
  else if c = '\n' then "\\n"
  else if c = '\r' then "\\r"
  else if c = '\t' then "\\t"
  else if c.toNat = 8 then "\\b"
  else if c.toNat = 12 then "\\f"
  else if c.toNat < 32 then
    "\\u00" ++ String.ofList [Text.digit (c.toNat / 16), Text.digit (c.toNat % 16)]
  else c.toString

def quote (s : String) : String := "\"" ++ String.join (s.toList.map escape) ++ "\""

def braces (members : List String) : String := "\x7b" ++ ",".intercalate members ++ "\x7d"

def floating {f : FloatFormat} (x : Floating f) : String :=
  if x.isFinite then x.text (.json f) else "null"

def text : Json → String
  | null => "null"
  | bool b => if b then "true" else "false"
  | int i => toString i
  | float x => floating x
  | str s => quote s
  | arr js => "[" ++ ",".intercalate (texts js) ++ "]"
  | obj members => braces (memberTexts members)
where
  texts : List Json → List String
    | [] => []
    | j :: js => j.text :: texts js
  memberTexts : List (String × Json) → List String
    | [] => []
    | (name, j) :: rest => (quote name ++ ":" ++ j.text) :: memberTexts rest

end Json

end TableScan
