import TableScan.Failure

namespace TableScan

inductive Comparison : Type
  | eq | ne | lt | le | gt | ge
  deriving DecidableEq

namespace Comparison

def symbol : Comparison → String
  | eq => "=="
  | ne => "!="
  | lt => "<"
  | le => "<="
  | gt => ">"
  | ge => ">="

def name : Comparison → String
  | eq => "equal"
  | ne => "notEqual"
  | lt => "less"
  | le => "lessEqual"
  | gt => "greater"
  | ge => "greaterEqual"

def flip : Comparison → Comparison
  | eq => eq
  | ne => ne
  | lt => gt
  | le => ge
  | gt => lt
  | ge => le

def holds : Comparison → Ordering → Bool
  | eq, o => o == .eq
  | ne, o => o != .eq
  | lt, o => o == .lt
  | le, o => o != .gt
  | gt, o => o == .gt
  | ge, o => o != .lt

theorem holds_flip (op : Comparison) (o : Ordering) : op.flip.holds o.swap = op.holds o := by
  cases op <;> cases o <;> rfl

@[simp] theorem flip_flip (op : Comparison) : op.flip.flip = op := by cases op <;> rfl

def all : List Comparison := [eq, ne, lt, le, gt, ge]

end Comparison

inductive Expr : Type
  | field : String → Expr
  | lit : Scalar → Expr
  | compare : Comparison → Expr → Expr → Expr
  | and : Expr → Expr → Expr
  | or : Expr → Expr → Expr
  | not : Expr → Expr
  | member : Expr → List Scalar → Expr
  | isValid : Expr → Expr
  | cast : Expr → DataType → Expr
  deriving DecidableEq

namespace Expr

def true_ : Expr := lit (.ofBool true)

def false_ : Expr := lit (.ofBool false)

def unknown : Expr := lit (.ofTruth none)

def ofBool (b : Bool) : Expr := lit (.ofBool b)

def all : List Expr → Expr
  | [] => true_
  | e :: es => es.foldl and e

def any : List Expr → Expr
  | [] => false_
  | e :: es => es.foldl or e

def isTrue : Expr → Bool
  | lit s => s = .ofBool true
  | _ => false

def isFalse : Expr → Bool
  | lit s => s = .ofBool false
  | _ => false

/-- False only of the literals that select no row: false, and a null that counts as a truth value.
-/
def isSatisfiable : Expr → Bool
  | lit s => !(s = .ofBool false || s = .ofTruth none || s = .null)
  | _ => true

def addField (name : String) (met : List String) : List String :=
  if met.contains name then met else met ++ [name]

def fieldsFrom : Expr → List String → List String
  | field name, met => addField name met
  | lit _, met => met
  | compare _ a b, met | and a b, met | or a b, met => b.fieldsFrom (a.fieldsFrom met)
  | not e, met | isValid e, met | member e _, met | cast e _, met => e.fieldsFrom met

def fields (e : Expr) : List String := e.fieldsFrom []

def conjuncts : Expr → List Expr
  | and a b => a.conjuncts ++ b.conjuncts
  | e => [e]

/-- What a conjunct fixes a field to: an equation with a literal its value, a test for absence null.
-/
def binding? : Expr → Option (String × Scalar)
  | compare .eq (field name) (lit v) => some (name, v)
  | compare .eq (lit v) (field name) => some (name, v)
  | not (isValid (field name)) => some (name, .null)
  | _ => none

def bindings (e : Expr) : List (String × Scalar) := e.conjuncts.filterMap binding?

def boundTo? (e : Expr) (name : String) : Option Scalar := e.bindings.lookup name

end Expr

end TableScan
