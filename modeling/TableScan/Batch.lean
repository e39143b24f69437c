import TableScan.Arithmetic
import TableScan.Column
import TableScan.Schema

open scoped TableScan.Arithmetic

namespace TableScan

structure Series : Type where
  name : String
  nullable : Bool
  column : Column
  metadata : Metadata
  deriving DecidableEq

namespace Series

def field (s : Series) : Field := ⟨s.name, s.column.type, s.nullable, s.metadata⟩

def breaksField (s : Series) : Bool := !s.nullable && s.column.hasNulls

end Series

structure Batch : Type where
  rows : Nat
  columns : List Series
  sized : ∀ s ∈ columns, s.column.length = rows

namespace Batch

@[ext] theorem ext {a b : Batch} (hr : a.rows = b.rows) (hc : a.columns = b.columns) : a = b := by
  cases a; cases b; cases hr; cases hc; rfl

instance : DecidableEq Batch := fun a b =>
  if h : a.rows = b.rows ∧ a.columns = b.columns then isTrue (ext h.1 h.2)
  else isFalse fun e => h (e ▸ ⟨rfl, rfl⟩)

def schema (b : Batch) : Schema := b.columns.map (·.field)

def column? (b : Batch) (name : String) : Option Column :=
  (b.columns.find? (·.name = name)).map (·.column)

theorem length_of_column? {b : Batch} {name : String} {c : Column} (h : b.column? name = some c) :
    c.length = b.rows := by
  simp only [column?, Option.map_eq_some_iff] at h
  obtain ⟨s, hs, rfl⟩ := h
  exact b.sized s (List.mem_of_find?_eq_some hs)

def ofColumns? (rows : Nat) (columns : List Series) : Option Batch :=
  if h : ∀ s ∈ columns, s.column.length = rows then some ⟨rows, columns, h⟩ else none

def select (b : Batch) (columns : List Series)
    (h : ∀ s ∈ columns, ∃ t ∈ b.columns, s.column = t.column) : Batch where
  rows := b.rows
  columns := columns
  sized := fun s hs => by
    obtain ⟨t, ht, e⟩ := h s hs
    rw [e]; exact b.sized t ht

def restrict (b : Batch) (names : List String) : Batch where
  rows := b.rows
  columns := b.columns.filter fun s => names.contains s.name
  sized := fun s hs => b.sized s (List.mem_filter.1 hs).1

def slice (b : Batch) (start count : Nat) : Batch where
  rows := min count (b.rows - start)
  columns := b.columns.map fun s => { s with column := s.column.slice start count }
  sized := by
    intro s hs
    obtain ⟨t, ht, rfl⟩ := List.mem_map.1 hs
    simp [Column.length_slice, b.sized t ht]

def filter (b : Batch) (mask : List Bool) : Batch where
  rows := (Column.keep mask (List.replicate b.rows ())).length
  columns := b.columns.map fun s => { s with column := s.column.filter mask }
  sized := by
    intro s hs
    obtain ⟨t, ht, rfl⟩ := List.mem_map.1 hs
    exact Column.length_keep_congr mask ((b.sized t ht).trans List.length_replicate.symm)

/-- The batch, unless a field that allows no nulls has some. -/
def checked (b : Batch) : Except ColumnFault Batch :=
  match b.columns.find? (·.breaksField) with
  | some s => .error (.nullsIn s.name)
  | none => .ok b

def piecesFrom (b : Batch) (size : Nat) : Nat → Nat → List Batch
  | 0, _ => []
  | fuel + 1, start =>
    if start < b.rows then b.slice start size :: piecesFrom b size fuel (start + size) else []

def pieces (b : Batch) (size : Nat) : List Batch :=
  if b.rows ≤ size then [b] else b.piecesFrom size b.rows 0

def joinColumn (t : DataType) (position : Nat) (batches : List Batch) : Column :=
  ⟨t, batches.flatMap fun b =>
    match b.columns[position]? with
    | some s => if h : s.column.type = t then h ▸ s.column.cells else List.replicate b.rows none
    | none => List.replicate b.rows none⟩

theorem length_cells_cast {c : Column} {t : DataType} (h : c.type = t) :
    (h ▸ c.cells : List (Option t.Carrier)).length = c.length := by
  subst h; rfl

theorem length_joinColumn (t : DataType) (position : Nat) (batches : List Batch) :
    (joinColumn t position batches).length = (batches.map (·.rows)).sum := by
  simp only [Column.length, joinColumn, List.length_flatMap]
  congr 1
  apply List.map_congr_left
  intro b _
  split
  · rename_i s hs
    split
    · rename_i h
      exact (length_cells_cast h).trans (b.sized s (List.mem_of_getElem? hs))
    · simp
  · simp

def concat (schema : Schema) (batches : List Batch) : Batch where
  rows := (batches.map (·.rows)).sum
  columns := schema.zipIdx.map fun (f, i) =>
    ⟨f.name, f.nullable, joinColumn f.type i batches, f.metadata⟩
  sized := by
    intro s hs
    obtain ⟨⟨f, i⟩, _, rfl⟩ := List.mem_map.1 hs
    exact length_joinColumn f.type i batches

end Batch

end TableScan
