import TableScan.Schema

/-!
One schema for many: fields of one name must agree in type, and a field is nullable if it is so
anywhere or missing somewhere. The schemas are first put in a canonical order, so that neither the
result nor the conflict found depends on the order they are given in.
-/

namespace TableScan.Schema

/-- The order of fields by name, then by the text of the type, then non-nullable first. -/
def compareFields (a b : Field) : Ordering :=
  (compare a.name b.name).then ((compare a.type.text b.type.text).then
    (compare a.nullable b.nullable))

def compareSchemas : Schema → Schema → Ordering
  | [], [] => .eq
  | [], _ :: _ => .lt
  | _ :: _, [] => .gt
  | a :: s, b :: t => (compareFields a b).then (compareSchemas s t)

/-- A field met so far, and in how many fields of that name. -/
structure Seen : Type where
  field : Field
  count : Nat
  deriving DecidableEq

def meet (f : Field) : List Seen → Except SchemaFault (List Seen)
  | [] => .ok [⟨f, 1⟩]
  | g :: rest =>
    if g.field.name = f.name then
      if g.field.type = f.type then
        -- the field that was met first keeps its metadata
        .ok (⟨{ g.field with nullable := g.field.nullable || f.nullable }, g.count + 1⟩ :: rest)
      else .error (.types f.name g.field.type f.type)
    else (g :: ·) <$> meet f rest

def meetAll (seen : List Seen) (fields : List Field) : Except SchemaFault (List Seen) :=
  fields.foldlM (fun seen f => meet f seen) seen

def Seen.finish (total : Nat) (g : Seen) : Field :=
  { g.field with nullable := g.field.nullable || g.count < total }

def canonical (schemas : List Schema) : List Schema :=
  schemas.mergeSort fun s t => compareSchemas s t != .gt

def unify (schemas : List Schema) : Except Failure Schema :=
  match meetAll [] (canonical schemas).flatten with
  | .error f => .error f
  | .ok seen => .ok (seen.map (Seen.finish schemas.length))

end TableScan.Schema
