import TableScan.Expr
import TableScan.Value.Scalar

namespace TableScan

structure Bound : Type where
  value : Scalar
  inclusive : Bool
  deriving DecidableEq

/-- What is known of a field in every row. -/
structure Facts : Type where
  value : Option Scalar
  valid : Option Bool
  lower : Option Bound
  upper : Option Bound
  excluded : List Scalar
  deriving DecidableEq

namespace Bound

def tighterUpper (new old : Bound) : Bool :=
  match new.value.order? old.value with
  | some .lt => true
  | some .eq => !new.inclusive && old.inclusive
  | _ => false

def tighterLower (new old : Bound) : Bool :=
  match new.value.order? old.value with
  | some .gt => true
  | some .eq => !new.inclusive && old.inclusive
  | _ => false

def beyond (side : Ordering) (v : Scalar) (b : Bound) : Bool :=
  match b.value.order? v with
  | some o => o == side || (o == .eq && !b.inclusive)
  | none => false

def reaches (side : Ordering) (v : Scalar) (b : Bound) : Bool :=
  match b.value.order? v with
  | some o => o == side || o == .eq
  | none => false

end Bound

namespace Facts

def none_ : Facts := ⟨none, none, none, none, []⟩

def tighten (tighter : Bound → Bound → Bool) (old : Option Bound) (new : Bound) : Option Bound :=
  match old with
  | none => some new
  | some b => if tighter new b then some new else some b

def addComparison (g : Facts) (op : Comparison) (v : Scalar) : Facts :=
  -- a null teaches nothing
  if v.isNull then g
  else
    let g := { g with valid := g.valid <|> some true }
    match op with
    | .eq => { g with value := g.value <|> some v }
    | .ne => { g with excluded := g.excluded ++ [v] }
    | .lt => { g with upper := tighten Bound.tighterUpper g.upper ⟨v, false⟩ }
    | .le => { g with upper := tighten Bound.tighterUpper g.upper ⟨v, true⟩ }
    | .gt => { g with lower := tighten Bound.tighterLower g.lower ⟨v, false⟩ }
    | .ge => { g with lower := tighten Bound.tighterLower g.lower ⟨v, true⟩ }

def add (name : String) (g : Facts) : Expr → Facts
  | .compare op (.field f) (.lit v) => if f = name then g.addComparison op v else g
  | .compare op (.lit v) (.field f) => if f = name then g.addComparison op.flip v else g
  | .isValid (.field f) => if f = name then { g with valid := g.valid <|> some true } else g
  | .not (.isValid (.field f)) =>
    if f = name then
      { g with valid := g.valid <|> some false, value := g.value <|> some .null }
    else g
  | _ => g

def ofGuarantee (given : Expr) (name : String) : Facts :=
  given.conjuncts.foldl (add name) none_

/-- The truth value of `field op v` where it is the same in all rows that agree with the facts. -/
def decide (g : Facts) (op : Comparison) (v : Scalar) : Option Bool :=
  if v.isNull then none
  else
    let excluded := g.excluded.any fun e => e.order? v = some .eq
    if excluded && op = .eq then some false
    else if excluded && op = .ne then some true
    else
      let above := g.lower.any (Bound.beyond .gt v)
      let atLeast := g.lower.any (Bound.reaches .gt v)
      let below := g.upper.any (Bound.beyond .lt v)
      let atMost := g.upper.any (Bound.reaches .lt v)
      match op with
      | .eq => if above || below then some false else none
      | .ne => if above || below then some true else none
      | .lt => if below then some true else if atLeast then some false else none
      | .le => if atMost then some true else if above then some false else none
      | .gt => if above then some true else if atMost then some false else none
      | .ge => if atLeast then some true else if below then some false else none

end Facts

end TableScan
