import TableScan.Arithmetic

open scoped TableScan.Arithmetic

namespace TableScan

inductive IntType : Type
  | int8 | int16 | int32 | int64
  | uint8 | uint16 | uint32 | uint64
  deriving DecidableEq

namespace IntType

def bits : IntType → Nat
  | int8 | uint8 => 8
  | int16 | uint16 => 16
  | int32 | uint32 => 32
  | int64 | uint64 => 64

def signed : IntType → Bool
  | int8 | int16 | int32 | int64 => true
  | uint8 | uint16 | uint32 | uint64 => false

def min (t : IntType) : Int := if t.signed then -(2 ^ (t.bits - 1)) else 0

def max (t : IntType) : Int := if t.signed then 2 ^ (t.bits - 1) - 1 else 2 ^ t.bits - 1

def text : IntType → String
  | int8 => "Int8"
  | int16 => "Int16"
  | int32 => "Int32"
  | int64 => "Int64"
  | uint8 => "UInt8"
  | uint16 => "UInt16"
  | uint32 => "UInt32"
  | uint64 => "UInt64"

def all : List IntType := [int8, int16, int32, int64, uint8, uint16, uint32, uint64]

end IntType

/-- An integer that fits the type. -/
structure Fixed (t : IntType) : Type where
  val : Int
  lower : t.min ≤ val
  upper : val ≤ t.max
  deriving DecidableEq

namespace Fixed

variable {t : IntType}

@[ext] theorem ext {a b : Fixed t} (h : a.val = b.val) : a = b := by
  cases a; cases b; cases h; rfl

def ofInt? (t : IntType) (i : Int) : Option (Fixed t) :=
  if h : t.min ≤ i ∧ i ≤ t.max then some ⟨i, h.1, h.2⟩ else none

@[simp] theorem ofInt?_val (a : Fixed t) : ofInt? t a.val = some a := by
  simp [ofInt?, a.lower, a.upper]

theorem val_of_ofInt? {i : Int} {a : Fixed t} (h : ofInt? t i = some a) : a.val = i := by
  simp only [ofInt?] at h
  split at h
  · cases h; rfl
  · cases h

theorem bind_ofInt?_eq_some {i : Option Int} {a : Fixed t} :
    i.bind (ofInt? t) = some a ↔ i = some a.val := by
  rw [Option.bind_eq_some_iff]
  constructor
  · rintro ⟨i, rfl, hi⟩
    rw [val_of_ofInt? hi]
  · rintro rfl
    exact ⟨_, rfl, ofInt?_val a⟩

def clamp (t : IntType) (i : Int) : Fixed t where
  val := if i < t.min then t.min else if t.max < i then t.max else i
  lower := by
    have : t.min ≤ t.max := by cases t <;> decide
    split
    · omega
    · split <;> omega
  upper := by
    have : t.min ≤ t.max := by cases t <;> decide
    split
    · omega
    · split <;> omega

def wrap (t : IntType) (i : Int) : Fixed t :=
  clamp t (if t.signed then i.bmod (2 ^ t.bits) else i % 2 ^ t.bits)

def compare (a b : Fixed t) : Ordering := Ord.compare a.val b.val

def bytes (a : Fixed t) : List UInt8 :=
  let word := (a.val % 2 ^ t.bits).toNat
  (List.range (t.bits / 8)).map fun i => (word / 256 ^ i % 256).toUInt8

end Fixed

end TableScan
