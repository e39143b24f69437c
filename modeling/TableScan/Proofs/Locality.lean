import TableScan.Proofs.Tuples

namespace TableScan

theorem mapM_slice {ε α β : Type} {f : α → Except ε β} {as : List α} {bs : List β}
    (h : as.mapM f = .ok bs) (i n : Nat) : ((as.drop i).take n).mapM f = .ok ((bs.drop i).take n) :=
  mapM_eq_ok.2 (List.forall₂_take n (List.forall₂_drop i (mapM_eq_ok.1 h)))

theorem zipWith_slice {α β γ : Type} (f : α → β → γ) (as : List α) (bs : List β) (i n : Nat) :
    List.zipWith f ((as.drop i).take n) ((bs.drop i).take n) =
      ((List.zipWith f as bs).drop i).take n := by
  rw [List.drop_zipWith, List.take_zipWith]

theorem replicate_slice {α : Type} (a : α) (rows i n : Nat) :
    ((List.replicate rows a).drop i).take n = List.replicate (min n (rows - i)) a := by
  rw [List.drop_replicate, List.take_replicate]

namespace Column

variable {c d : Column} {t : DataType}

theorem castCells_slice {cells : List (Option t.Carrier)} (h : c.castCells t = .ok cells)
    (i n : Nat) :
    (c.slice i n).castCells t = .ok ((cells.drop i).take n) := by
  obtain ⟨type, old⟩ := c
  unfold castCells at h ⊢
  split at h
  · rename_i heq
    obtain rfl : type = t := heq
    cases h
    exact dif_pos rfl
  · rename_i hne
    rw [dif_neg (show ¬ (slice ⟨type, old⟩ i n).type = t from hne)]
    split at h
    · cases h
    · rename_i f hf
      have hslice := mapM_slice (mapError_eq_ok.1 h) i n
      simp only [slice, hf]
      exact mapError_eq_ok.2 hslice

theorem cast_slice (h : c.cast t = .ok d) (i n : Nat) :
    (c.slice i n).cast t = .ok (d.slice i n) := by
  obtain ⟨cells, hcells, rfl⟩ := map_eq_ok.1 h
  exact map_eq_ok.2 ⟨_, castCells_slice hcells i n, rfl⟩

theorem slice_constant (s : Scalar) (rows i n : Nat) :
    (constant s rows).slice i n = constant s (min n (rows - i)) :=
  congrArg (Column.mk s.dataType) (replicate_slice s.value rows i n)

theorem slice_nulls (t : DataType) (rows i n : Nat) :
    (nulls t rows).slice i n = nulls t (min n (rows - i)) :=
  congrArg (Column.mk t) (replicate_slice none rows i n)

theorem valid_slice (c : Column) (i n : Nat) : (c.slice i n).valid = (c.valid.drop i).take n := by
  rw [valid, valid, slice, List.map_take, List.map_drop]

end Column

namespace Operand

variable {op : Comparison} {f : Option Bool → Option Bool → Option Bool} {rows : Nat}
  {u v w : Operand}

def slice (i n : Nat) : Operand → Operand
  | column c => column (c.slice i n)
  | scalar s => scalar s

theorem type_slice (v : Operand) (i n : Nat) : (v.slice i n).type = v.type := by
  cases v <;> rfl

theorem isSingle_slice (v : Operand) (i n : Nat) : (v.slice i n).IsSingle ↔ v.IsSingle := by
  cases v <;> rfl

theorem toColumn_slice (v : Operand) (rows i n : Nat) :
    (v.slice i n).toColumn (min n (rows - i)) = (v.toColumn rows).slice i n := by
  cases v with
  | column c => rfl
  | scalar s => exact (Column.slice_constant s rows i n).symm

theorem truths_slice {ts : List (Option Bool)} (h : v.truths rows = .ok ts) (i n : Nat) :
    (v.slice i n).truths (min n (rows - i)) = .ok ((ts.drop i).take n) := by
  unfold truths at h ⊢
  rw [toColumn_slice]
  split at h
  · rename_i hc
    cases h
    rw [hc]
    rfl
  · rename_i cells hc
    cases h
    rw [hc, ← List.map_drop, ← List.map_take]
    rfl
  · cases h

theorem Combined.eq_ok (h : Combined f rows v w u) : combine f rows v w = .ok u := by
  cases h with
  | single ha hb =>
    exact bind_eq_ok.2 ⟨_, mapError_eq_ok.2 ha, bind_eq_ok.2 ⟨_, mapError_eq_ok.2 hb, rfl⟩⟩
  | byRow hne hs ht =>
    have hrows : (do
        let xs ← v.truths rows
        let ys ← w.truths rows
        return ofTruths (List.zipWith f xs ys)) = Except.ok _ :=
          bind_eq_ok.2 ⟨_, hs, bind_eq_ok.2 ⟨_, ht, rfl⟩⟩
    cases v with
    | column c => exact hrows
    | scalar a =>
      cases w with
      | column c => exact hrows
      | scalar b => exact absurd ⟨trivial, trivial⟩ hne

theorem combine_slice (h : combine f rows v w = .ok u) (i n : Nat) :
    combine f (min n (rows - i)) (v.slice i n) (w.slice i n) = .ok (u.slice i n) := by
  refine Combined.eq_ok ?_
  cases combined h with
  | single ha hb => exact .single ha hb
  | byRow hne hs ht =>
    rw [← isSingle_slice v i n, ← isSingle_slice w i n] at hne
    have hrows := Combined.byRow (f := f) hne (truths_slice hs i n) (truths_slice ht i n)
    rw [zipWith_slice] at hrows
    exact hrows

theorem Compared.eq_ok (h : Compared op rows v w u) : compareWith op rows v w = .ok u := by
  have typed (hne : ¬(v.IsSingle ∧ w.IsSingle)) : compareWith op rows v w =
      compareTyped op rows v w := by
    obtain ⟨a, b, rfl, rfl⟩ | ⟨-, h⟩ := compareWith_cases op rows v w
    · exact absurd ⟨trivial, trivial⟩ hne
    · exact h
  cases h with
  | single ho => exact bind_eq_ok.2 ⟨_, mapError_eq_ok.2 ho, rfl⟩
  | nulls hne ht =>
    rw [typed hne, compareTyped, ht]
    rfl
  | cells hne ht hn hxs hys =>
    rw [typed hne, compareTyped, ht]
    exact (if_neg hn).trans
      (bind_eq_ok.2 ⟨_, mapError_eq_ok.2 hxs, bind_eq_ok.2 ⟨_, mapError_eq_ok.2 hys, rfl⟩⟩)

theorem compareWith_slice (h : compareWith op rows v w = .ok u) (i n : Nat) :
    compareWith op (min n (rows - i)) (v.slice i n) (w.slice i n) = .ok (u.slice i n) := by
  refine Compared.eq_ok ?_
  cases compared h with
  | single ho => exact .single ho
  | nulls hne ht =>
    rw [← isSingle_slice v i n, ← isSingle_slice w i n] at hne
    exact .nulls hne (by rw [type_slice, type_slice, ht])
  | cells hne ht hn hxs hys =>
    rw [← isSingle_slice v i n, ← isSingle_slice w i n] at hne
    have hcells : Compared op (min n (rows - i)) (v.slice i n) (w.slice i n) _ :=
      .cells hne (by rw [type_slice, type_slice, ht]) hn
        (by rw [toColumn_slice]; exact Column.castCells_slice hxs i n)
        (by rw [toColumn_slice]; exact Column.castCells_slice hys i n)
    rw [zipWith_slice] at hcells
    exact hcells

theorem negate_slice (h : v.negate rows = .ok u) (i n : Nat) :
    (v.slice i n).negate (min n (rows - i)) = .ok (u.slice i n) := by
  cases v with
  | scalar s =>
    obtain ⟨t, ht, h⟩ := bind_eq_ok.1 h
    cases h
    exact bind_eq_ok.2 ⟨t, ht, rfl⟩
  | column c =>
    obtain ⟨ts, hts, h⟩ := bind_eq_ok.1 h
    cases h
    have hslice := truths_slice hts i n
    refine bind_eq_ok.2 ⟨_, hslice, ?_⟩
    rw [List.map_take, List.map_drop]
    rfl

theorem validity_slice (v : Operand) (i n : Nat) :
    (v.slice i n).validity = v.validity.slice i n := by
  cases v with
  | scalar s => rfl
  | column c =>
    change ofTruths ((c.slice i n).valid.map some) = ofTruths (((c.valid.map some).drop i).take n)
    rw [Column.valid_slice, List.map_take, List.map_drop]

theorem castTo_slice {t : DataType} (h : v.castTo t = .ok u) (i n : Nat) :
    (v.slice i n).castTo t = .ok (u.slice i n) := by
  cases v with
  | scalar s =>
    obtain ⟨s', hs, h⟩ := bind_eq_ok.1 h
    cases h
    exact bind_eq_ok.2 ⟨s', hs, rfl⟩
  | column c =>
    obtain ⟨d, hd, h⟩ := bind_eq_ok.1 h
    cases h
    exact bind_eq_ok.2 ⟨_, mapError_eq_ok.2 (Column.cast_slice (mapError_eq_ok.1 hd) i n), rfl⟩

end Operand

namespace Expr

open Operand

theorem memberOf_slice {rows : Nat} {v u : Operand} {set : List Scalar}
    (h : memberOf v rows set = .ok u) (i n : Nat) :
    memberOf (v.slice i n) (min n (rows - i)) set = .ok (u.slice i n) := by
  cases set with
  | nil =>
    cases h
    rfl
  | cons s set =>
    obtain ⟨first, hfirst, hrest⟩ := bind_eq_ok.1 h
    refine bind_eq_ok.2 ⟨_, compareWith_slice hfirst i n, ?_⟩
    -- the equations met so far are slices of those over all rows
    clear h hfirst
    induction set generalizing first with
    | nil =>
      cases hrest
      rfl
    | cons s set ih =>
      obtain ⟨found, hfound, hrest⟩ := bind_eq_ok.1 hrest
      obtain ⟨c, hc, hfound⟩ := bind_eq_ok.1 hfound
      have hstep := bind_eq_ok.2 ⟨_, compareWith_slice hc i n, combine_slice hfound i n⟩
      exact bind_eq_ok.2 ⟨_, hstep, ih found hrest⟩

variable {b : Batch} {e : Expr} {v : Operand}

theorem column?_slice (b : Batch) (i n : Nat) (name : String) :
    (b.slice i n).column? name = (b.column? name).map (·.slice i n) := by
  rw [Batch.column?_map (b := b) (f := fun s => { s with column := s.column.slice i n }) rfl
    (fun _ => rfl),
    Batch.column?, Option.map_map]
  rfl

theorem operand_slice (h : e.operand b = .ok v) (i n : Nat) :
    e.operand (b.slice i n) = .ok (v.slice i n) := by
  induction e generalizing v with
  | field name =>
    obtain ⟨c, hc, rfl⟩ := operand_field_eq_ok h
    rw [operand, column?_slice, hc]
    rfl
  | lit s =>
    cases h
    rfl
  | compare op x y ihx ihy =>
    obtain ⟨l, hl, h⟩ := bind_eq_ok.1 h
    obtain ⟨r, hr, h⟩ := bind_eq_ok.1 h
    exact bind_eq_ok.2 ⟨_, ihx hl, bind_eq_ok.2 ⟨_, ihy hr, compareWith_slice h i n⟩⟩
  | and x y ihx ihy | or x y ihx ihy =>
    obtain ⟨l, hl, h⟩ := bind_eq_ok.1 h
    obtain ⟨r, hr, h⟩ := bind_eq_ok.1 h
    exact bind_eq_ok.2 ⟨_, ihx hl, bind_eq_ok.2 ⟨_, ihy hr, combine_slice h i n⟩⟩
  | not x ih =>
    rw [operand_not] at h ⊢
    obtain ⟨w, hw, h⟩ := bind_eq_ok.1 h
    exact bind_eq_ok.2 ⟨_, ih hw, negate_slice h i n⟩
  | isValid x ih =>
    rw [operand_isValid] at h ⊢
    obtain ⟨w, hw, h⟩ := bind_eq_ok.1 h
    cases h
    exact bind_eq_ok.2 ⟨_, ih hw, congrArg Except.ok (validity_slice w i n)⟩
  | member x set ih =>
    rw [operand] at h ⊢
    split at h
    · rename_i hset
      cases h
      exact if_pos hset
    · rename_i hset
      obtain ⟨w, hw, h⟩ := bind_eq_ok.1 h
      rw [if_neg hset]
      exact bind_eq_ok.2 ⟨_, ih hw, memberOf_slice h i n⟩
  | cast x t ih =>
    rw [operand_cast] at h ⊢
    obtain ⟨w, hw, h⟩ := bind_eq_ok.1 h
    exact bind_eq_ok.2 ⟨_, ih hw, castTo_slice h i n⟩

theorem mask_slice {m : List (Option Bool)} (h : e.mask b = .ok m) (i n : Nat) :
    e.mask (b.slice i n) = .ok ((m.drop i).take n) := by
  obtain ⟨v, hv, h⟩ := bind_eq_ok.1 h
  exact bind_eq_ok.2 ⟨_, operand_slice hv i n, truths_slice h i n⟩

end Expr

/-- Batches of as many rows, with the same columns of some names. -/
structure Batch.Agrees (names : List String) (b b' : Batch) : Prop where
  rows : b.rows = b'.rows
  column : ∀ n ∈ names, b.column? n = b'.column? n

theorem Batch.Agrees.mono {names names' : List String} {b b' : Batch} (h : b.Agrees names b')
    (hn : ∀ n ∈ names', n ∈ names) : b.Agrees names' b' :=
  ⟨h.rows, fun n hn' => h.column n (hn n hn')⟩

namespace Expr

theorem operand_agrees {b b' : Batch} {e : Expr} (h : b.Agrees e.fields b') :
    e.operand b = e.operand b' := by
  induction e with
  | field n => rw [operand, operand, h.column n (mem_fields_field.2 rfl)]
  | lit v => rfl
  | compare op x y ihx ihy | and x y ihx ihy | or x y ihx ihy =>
    rw [operand, operand, ihx (h.mono fun n hn => by simp [hn]),
      ihy (h.mono fun n hn => by simp [hn]), h.rows]
  | not e ih => rw [operand_not, operand_not, ih h, h.rows]
  | isValid e ih => rw [operand_isValid, operand_isValid, ih h]
  | member e set ih => rw [operand, operand, ih h, h.rows]
  | cast e t ih => rw [operand_cast, operand_cast, ih h]

theorem mask_agrees {b b' : Batch} {e : Expr} (h : b.Agrees e.fields b') :
    e.mask b = e.mask b' := by
  rw [mask, mask, operand_agrees h, h.rows]

end Expr

end TableScan
