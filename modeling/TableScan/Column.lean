import TableScan.Value.Scalar

namespace TableScan

structure Column : Type where
  type : DataType
  cells : List (Option type.Carrier)
  deriving DecidableEq

namespace Column

def length (c : Column) : Nat := c.cells.length

def nulls (t : DataType) (n : Nat) : Column := ⟨t, List.replicate n none⟩

def constant (s : Scalar) (n : Nat) : Column := ⟨s.dataType, List.replicate n s.value⟩

/-- Whether a cell is null. The type without values marks none of its cells. -/
def hasNulls (c : Column) : Bool := c.type ≠ .null && c.cells.any (·.isNone)

def valid (c : Column) : List Bool := c.cells.map (·.isSome)

def slice (c : Column) (start count : Nat) : Column := ⟨c.type, (c.cells.drop start).take count⟩

def keep {α : Type} : List Bool → List α → List α
  | true :: mask, a :: as => a :: keep mask as
  | false :: mask, _ :: as => keep mask as
  | _, _ => []

def filter (mask : List Bool) (c : Column) : Column := ⟨c.type, keep mask c.cells⟩

def convertCell {a b : Type} (f : a → Outcome b) : Option a → Except CastFault (Option b)
  | none => .ok none
  | some x => (f x).lenient

def castCells (c : Column) (t : DataType) : Except ColumnFault (List (Option t.Carrier)) :=
  if h : c.type = t then .ok (h ▸ c.cells)
  else
    match conversion c.type t with
    | .error e => .error (.cast e)
    | .ok f => (c.cells.mapM (convertCell f)).mapError .cast

def cast (c : Column) (t : DataType) : Except ColumnFault Column :=
  (c.castCells t).map fun cells => ⟨t, cells⟩

def scalarAt (c : Column) (row : Nat) : Except Failure Scalar :=
  match c.cells[row]? with
  | none => .error (.index row c.length)
  | some cell => (c.type.scalar? cell).mapError .type

theorem length_nulls (t : DataType) (n : Nat) : (nulls t n).length = n :=
  List.length_replicate

theorem length_constant (s : Scalar) (n : Nat) : (constant s n).length = n :=
  List.length_replicate

theorem length_slice (c : Column) (start count : Nat) :
    (c.slice start count).length = min count (c.length - start) := by
  simp [length, slice]

theorem length_keep_congr {α β : Type} (mask : List Bool) {as : List α} {bs : List β}
    (h : as.length = bs.length) : (keep mask as).length = (keep mask bs).length := by
  induction mask generalizing as bs with
  | nil => cases as <;> cases bs <;> rfl
  | cons m mask ih =>
    cases as with
    | nil =>
      cases bs with
      | nil => simp [keep]
      | cons b bs => simp at h
    | cons a as =>
      cases bs with
      | nil => simp at h
      | cons b bs => cases m <;> simp [keep, ih (by simpa using h : as.length = bs.length)]

theorem length_mapM {ε α β : Type} {f : α → Except ε β} {as : List α} {bs : List β}
    (h : as.mapM f = .ok bs) : bs.length = as.length := by
  induction as generalizing bs with
  | nil => simp [pure, Except.pure] at h; simp [← h]
  | cons a as ih =>
    simp only [List.mapM_cons, bind, Except.bind] at h
    split at h
    · cases h
    · split at h
      · cases h
      · rename_i heq
        simp only [pure, Except.pure, Except.ok.injEq] at h
        simp [← h, ih heq]

theorem length_castCells {c : Column} {t : DataType} {cells : List (Option t.Carrier)}
    (h : c.castCells t = .ok cells) : cells.length = c.length := by
  obtain ⟨type, old⟩ := c
  simp only [castCells] at h
  split at h
  · rename_i e
    subst e
    cases h; rfl
  · split at h
    · cases h
    · rename_i f _
      cases hm : old.mapM (convertCell f) with
      | error e =>
        rw [hm] at h
        cases h
      | ok new =>
        rw [hm] at h
        cases h
        exact length_mapM hm

theorem type_cast {c d : Column} {t : DataType} (h : c.cast t = .ok d) : d.type = t := by
  cases hc : c.castCells t with
  | error e => simp [cast, hc, Except.map] at h
  | ok cells => simp only [cast, hc, Except.map, Except.ok.injEq] at h; subst h; rfl

theorem length_cast {c d : Column} {t : DataType} (h : c.cast t = .ok d) : d.length = c.length := by
  cases hc : c.castCells t with
  | error e => simp [cast, hc, Except.map] at h
  | ok cells =>
    simp only [cast, hc, Except.map, Except.ok.injEq] at h
    subst h
    exact length_castCells hc

end Column

end TableScan
