import TableScan.Expr

namespace TableScan

def Scalar.literal (s : Scalar) : String :=
  match s.text? with
  | some t => "\"" ++ t ++ "\""
  | none => s.text

namespace Expr

def text : Expr → String
  | field name => name
  | lit v => v.literal
  | compare op a b => "(" ++ a.text ++ " " ++ op.symbol ++ " " ++ b.text ++ ")"
  | and a b => "(" ++ a.text ++ " and " ++ b.text ++ ")"
  | or a b => "(" ++ a.text ++ " or " ++ b.text ++ ")"
  | not e => "not(" ++ e.text ++ ")"
  | isValid e => "is_valid(" ++ e.text ++ ")"
  | member e set => "(" ++ e.text ++ " in [" ++ ", ".intercalate (set.map (·.literal)) ++ "])"
  | cast e t => "cast(" ++ e.text ++ " as " ++ t.text ++ ")"

end Expr

end TableScan
