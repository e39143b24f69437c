import TableScan.Expr.Facts
import TableScan.Expr.Eval

namespace TableScan.Expr

def combineLiterals (f : Option Bool → Option Bool → Option Bool) (a b : Scalar) :
    Except Failure Expr := do
  let x ← a.truth.mapError .type
  let y ← b.truth.mapError .type
  return lit (.ofTruth (f x y))

def simplifyAnd (a b : Expr) : Except Failure Expr :=
  if a.isFalse || b.isFalse then .ok false_
  else if a.isTrue then .ok b
  else if b.isTrue then .ok a
  else
    match a, b with
    | lit x, lit y => combineLiterals kleeneAnd x y
    | a, b => .ok (and a b)

def simplifyOr (a b : Expr) : Except Failure Expr :=
  if a.isTrue || b.isTrue then .ok true_
  else if a.isFalse then .ok b
  else if b.isFalse then .ok a
  else
    match a, b with
    | lit x, lit y => combineLiterals kleeneOr x y
    | a, b => .ok (or a b)

def simplifyNot : Expr → Except Failure Expr
  | lit v => do return lit (.ofTruth (kleeneNot (← v.truth.mapError .type)))
  | e => .ok (not e)

def simplifyComparison (facts : String → Facts) (op : Comparison) :
    Expr → Expr → Except Failure Expr
  | lit a, lit b => do
    let o ← (a.compare b).mapError .type
    return lit (.ofTruth (o.map op.holds))
  | field name, lit v =>
    match (facts name).decide op v with
    | some b => .ok (ofBool b)
    | none => .ok (compare op (field name) (lit v))
  | lit v, field name =>
    match (facts name).decide op.flip v with
    | some b => .ok (ofBool b)
    | none => .ok (compare op (lit v) (field name))
  | a, b => .ok (compare op a b)

def simplifyValid (facts : String → Facts) : Expr → Expr
  | lit v => ofBool (!v.isNull)
  | field name =>
    match (facts name).valid with
    | some b => ofBool b
    | none => isValid (field name)
  | e => isValid e

/-- Whether a value is in the set: the first equal element answers, else a null leaves it unknown.
-/
def literalMember (v : Scalar) : List Scalar → Bool → Except Failure Expr
  | [], sawNull => .ok (if sawNull then unknown else false_)
  | s :: set, sawNull => do
    match ← (v.compare s).mapError .type with
    | some .eq => return true_
    | some _ => literalMember v set sawNull
    | none => literalMember v set true

def simplifyMember (facts : String → Facts) (set : List Scalar) : Expr → Except Failure Expr
  | lit v => if v.isNull then .ok unknown else literalMember v set false
  | field name =>
    let decisions := set.map ((facts name).decide .eq)
    if decisions.contains (some true) then .ok true_
    else if decisions.all (· == some false) then .ok false_
    else .ok (member (field name) set)
  | e => .ok (member e set)

def simplifyCast (t : DataType) : Expr → Except Failure Expr
  | lit v => do return lit (← v.castTo t)
  | e => .ok (cast e t)

def simplifyWith (facts : String → Facts) : Expr → Except Failure Expr
  | field name => .ok (((facts name).value.map lit).getD (field name))
  | lit v => .ok (lit v)
  | compare op a b => do
    let l ← a.simplifyWith facts
    let r ← b.simplifyWith facts
    simplifyComparison facts op l r
  | and a b => do
    let l ← a.simplifyWith facts
    let r ← b.simplifyWith facts
    simplifyAnd l r
  | or a b => do
    let l ← a.simplifyWith facts
    let r ← b.simplifyWith facts
    simplifyOr l r
  | not e => do simplifyNot (← e.simplifyWith facts)
  | isValid e => do return simplifyValid facts (← e.simplifyWith facts)
  | member e set =>
    if set = [] then .ok false_ else do simplifyMember facts set (← e.simplifyWith facts)
  | cast e t => do simplifyCast t (← e.simplifyWith facts)

def simplify (e given : Expr) : Except Failure Expr := e.simplifyWith (Facts.ofGuarantee given)

def fold (e : Expr) : Except Failure Expr := e.simplifyWith fun _ => Facts.none_

end TableScan.Expr
