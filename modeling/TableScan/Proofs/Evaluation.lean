import TableScan.Proofs.Typing

namespace TableScan

/-- A conversion that is there and fails for no cell: what it cannot keep becomes null where casts
are lenient. -/
def NeverFails {α β : Type} (r : Option (Rule α β)) : Prop :=
  ∃ f, r = some (.ok f) ∧ ∀ a e, f a ≠ .broken e

namespace Conversion

variable {α β γ : Type}

theorem ok_ne_broken {a : α} {e : CastFault} : Outcome.ok a ≠ .broken e := nofun

theorem ofOption_ne_broken {fault e : CastFault} {o : Option α} :
    Outcome.ofOption fault o ≠ .broken e := by
  cases o <;> nofun

theorem neverFails_each {f : α → Outcome β} (h : ∀ a e, f a ≠ .broken e) :
    NeverFails (each f) := ⟨f, rfl, h⟩

theorem neverFails_eachOf {read : α → β} {f : β → Outcome γ} (h : ∀ b e, f b ≠ .broken e) :
    NeverFails (eachOf (some read) f) := ⟨_, rfl, fun a => h (read a)⟩

theorem neverFails_orElse {r r' : Option (Rule α β)} (h : NeverFails r) :
    NeverFails (r <|> r') := by
  obtain ⟨f, rfl, hf⟩ := h
  exact ⟨f, rfl, hf⟩

theorem toFixed_ne_broken {t : IntType} {n : Number} {e : CastFault} : n.toFixed t ≠ .broken e :=
  ofOption_ne_broken

theorem fit_ne_broken {p : Nat} {i : Int} {e : CastFault} : Decimals.fit p i ≠ .broken e := by
  unfold Decimals.fit
  split <;> nofun

theorem ofInt_ne_broken {p : Nat} {scale i : Int} {e : CastFault} :
    Decimals.ofInt p scale i ≠ .broken e := by
  unfold Decimals.ofInt
  split
  · dsimp only
    split
    · exact fit_ne_broken
    · intro h
      cases h
  · exact fit_ne_broken

theorem rescale_ne_broken {p : Nat} {scale from_ i : Int} {e : CastFault} :
    Decimals.rescale p scale from_ i ≠ .broken e := by
  unfold Decimals.rescale
  split
  · dsimp only
    split
    · exact fit_ne_broken
    · nofun
  · exact fit_ne_broken

theorem neverFails_toFixed? {t : IntType} {p : DataType} (hn : p.isNumeric)
    (hf : p.isFloating = false) :
    NeverFails (toFixed? t p) := by
  cases p with
  | scalar s => cases s with
    | int i => exact neverFails_orElse (neverFails_eachOf fun _ _ => toFixed_ne_broken)
    | float32 | float64 => cases hf
    | _ => cases hn
  | decimal => exact neverFails_each fun _ _ => ofOption_ne_broken
  | float16 => cases hf
  | _ => cases hn

theorem neverFails_toDecimal? {precision : Nat} {scale : Int} {p : DataType} (hn : p.isNumeric)
    (hf : p.isFloating = false) : NeverFails (toDecimal? precision scale p) := by
  cases p with
  | scalar s => cases s with
    | int i => exact neverFails_each fun _ _ => ofInt_ne_broken
    | float32 | float64 => cases hf
    | _ => cases hn
  | decimal => exact neverFails_each fun _ _ => rescale_ne_broken
  | float16 => cases hf
  | _ => cases hn

theorem neverFails_toFloating? {f : FloatFormat} {name p : DataType} (hn : p.isNumeric)
    (hf : f ≠ .half) :
    NeverFails (toFloating? f name p) := by
  cases p with
  | scalar s => cases s with
    | int i => exact neverFails_orElse (neverFails_eachOf fun _ _ => ok_ne_broken)
    | float32 | float64 => exact neverFails_orElse (neverFails_eachOf fun _ _ => ok_ne_broken)
    | _ => cases hn
  | decimal => cases f with
    | half => exact absurd rfl hf
    | _ => exact neverFails_each fun _ _ => ok_ne_broken
  | float16 => exact neverFails_orElse (neverFails_eachOf fun _ _ => ok_ne_broken)
  | _ => cases hn

theorem neverFails_toFlat? {p t : DataType} (h : NeverFails (flat? p t)) :
    NeverFails (toFlat? p t) := by
  unfold toFlat?
  split
  · exact neverFails_each fun _ _ => ok_ne_broken
  · exact h

end Conversion

theorem comparisonType_cases {p r t : DataType} (h : comparisonType p r = some t) :
    t = p.plain ∨ p.plain = .null ∨
    (p.plain.isNumeric ∧ (t = .float64 ∨ p.plain.isFloating = false ∧
      (t = .int .uint64 ∨ t = .int .int64 ∨ t = .decimal 38 0))) ∨
      (p.plain = .utf8 ∧ t = .largeUtf8) ∨ (p.plain = .date32 ∧ t = .date64) := by
  unfold comparisonType at h
  dsimp only at h
  generalize p.plain = l at h ⊢
  generalize r.plain = r at h
  split at h
  · cases h
    exact .inl rfl
  split at h
  · rename_i hl
    exact .inr (.inl hl)
  split at h
  · cases h
    exact .inl rfl
  split at h
  · rename_i hnum
    rw [Bool.and_eq_true] at hnum
    refine .inr (.inr (.inl ⟨hnum.1, ?_⟩))
    split at h
    · cases h
      exact .inl rfl
    · rename_i hf
      rw [Bool.or_eq_true, not_or] at hf
      refine .inr ⟨by simpa using hf.1, ?_⟩
      split at h
      · cases h
        exact .inl rfl
      · split at h
        · cases h
          exact .inr (.inr rfl)
        · cases h
          exact .inr (.inl rfl)
  · split at h <;> cases h <;> simp

open Conversion in
theorem neverFails_comparison {p r t : DataType} (h : comparisonType p r = some t)
    (hnull : p.plain = .null → t ≠ .float16) : NeverFails (conversion? p t) := by
  have ht := (Operand.comparisonType_plain h).2.1
  have flat (q : DataType) (hq : q.isDictionary = false) (hplain : q = p.plain) :
      NeverFails (conversion? q t) := by
    subst hplain
    by_cases hn : p.plain = .null
    · rw [hn]
      by_cases htn : t = .null
      · subst htn
        exact neverFails_each nofun
      · have hfrom : conversion? .null t = fromNull? t := by
          cases t with
          | dictionary => cases ht
          | scalar s => cases s with
            | null => exact absurd rfl htn
            | _ => rfl
          | _ => rfl
        rw [hfrom]
        unfold fromNull?
        split
        · exact absurd rfl (hnull hn)
        · exact neverFails_each nofun
    · rw [conversion?_flat hq ht hn]
      rcases comparisonType_cases h with rfl | h | ⟨hnum, rfl | ⟨hf, rfl | rfl | rfl⟩⟩ | ⟨hp, rfl⟩ |
        ⟨hp, rfl⟩
      · unfold toFlat?
        rw [dif_pos rfl]
        exact neverFails_each nofun
      · exact absurd h hn
      · exact neverFails_toFlat? (neverFails_toFloating? hnum nofun)
      · exact neverFails_toFlat? (neverFails_toFixed? hnum hf)
      · exact neverFails_toFlat? (neverFails_toFixed? hnum hf)
      · exact neverFails_toFlat? (neverFails_toDecimal? hnum hf)
      · rw [hp]
        exact neverFails_toFlat? (neverFails_orElse (neverFails_eachOf fun _ _ => ok_ne_broken))
      · rw [hp]
        exact neverFails_toFlat? (neverFails_each fun _ _ => ok_ne_broken)
  -- what is in dictionaries is converted as it is outside of them
  clear h hnull
  induction p with
  | dictionary k v ih =>
    have hv : conversion? (.dictionary k v) t = conversion? v t := by
      cases t with
      | dictionary => cases ht
      | _ => rfl
    rw [hv]
    exact ih flat
  | _ => exact flat _ rfl rfl

theorem Column.mapM_of_neverFails {α β : Type} {f : α → Outcome β} (h : ∀ a e, f a ≠ .broken e)
    (cells : List (Option α)) : ∃ new, cells.mapM (convertCell f) = .ok new := by
  induction cells with
  | nil => exact ⟨[], rfl⟩
  | cons cell cells ih =>
    obtain ⟨new, hnew⟩ := ih
    have hcell : ∃ y, convertCell f cell = .ok y := by
      cases cell with
      | none => exact ⟨none, rfl⟩
      | some a =>
        cases hf : f a with
        | ok b => exact ⟨some b, by rw [convertCell, hf]; rfl⟩
        | lossy e => exact ⟨none, by rw [convertCell, hf]; rfl⟩
        | broken e => exact absurd hf (h a e)
    obtain ⟨y, hy⟩ := hcell
    exact ⟨y :: new, by rw [List.mapM_cons, hy, hnew]; rfl⟩

theorem Column.castCells_of_neverFails {c : Column} {t : DataType}
    (h : NeverFails (conversion? c.type t)) :
    ∃ cells, c.castCells t = .ok cells := by
  obtain ⟨f, hf, hnever⟩ := h
  unfold castCells
  split
  · exact ⟨_, rfl⟩
  · obtain ⟨new, hnew⟩ := mapM_of_neverFails hnever c.cells
    refine ⟨new, ?_⟩
    rw [conversion, hf, Option.getD_some]
    exact mapError_eq_ok.2 hnew

theorem Column.castCells_eq_error {c : Column} {t : DataType} {f : ColumnFault}
    (h : c.castCells t = .error f) : ∃ e, f = .cast e := by
  unfold castCells at h
  split at h
  · cases h
  · split at h
    · cases h
      exact ⟨_, rfl⟩
    · obtain ⟨e, -, rfl⟩ := mapError_eq_error.1 h
      exact ⟨e, rfl⟩

theorem Column.cast_eq_error {c : Column} {t : DataType} {f : ColumnFault}
    (h : c.cast t = .error f) :
    ∃ e, f = .cast e := by
  cases hcells : c.castCells t with
  | ok cells => simp [cast, hcells, Except.map] at h
  | error g =>
    simp only [cast, hcells, Except.map, Except.error.injEq] at h
    subst h
    exact castCells_eq_error hcells

def Comparable (l r : DataType) : Prop :=
  ∃ t, comparisonType l r = some t ∧ (l.plain = .null ∨ r.plain = .null → t ≠ .float16)

theorem Comparable.isSome {l r : DataType} (h : Comparable l r) : (comparisonType l r).isSome := by
  obtain ⟨t, ht, -⟩ := h
  exact Option.isSome_iff_exists.2 ⟨t, ht⟩

namespace Operand

def Fills (rows : Nat) (v : Operand) : Prop := (v.toColumn rows).length = rows

variable {op : Comparison} {rows : Nat} {u v w : Operand} {f : Failure} {set : List Scalar}

theorem compareWith_of_comparable (h : Comparable v.type w.type) :
    ∃ u, compareWith op rows v w = .ok u := by
  obtain ⟨t, ht, hnull⟩ := h
  obtain ⟨a, b, rfl, rfl⟩ | ⟨-, he⟩ := compareWith_cases op rows v w
  · obtain ⟨o, ho⟩ := Scalar.compare_of_comparisonType (Option.isSome_iff_exists.2 ⟨t, ht⟩)
    exact ⟨_, bind_eq_ok.2 ⟨o, mapError_eq_ok.2 ho, rfl⟩⟩
  have hv : ∃ cells, (v.toColumn rows).castCells t = .ok cells := by
    refine Column.castCells_of_neverFails ?_
    rw [type_toColumn]
    exact neverFails_comparison ht fun hn => hnull (.inl hn)
  have hw : ∃ cells, (w.toColumn rows).castCells t = .ok cells := by
    refine Column.castCells_of_neverFails ?_
    rw [type_toColumn]
    exact neverFails_comparison ((Value.comparisonType_comm v.type w.type).trans ht) fun hn =>
      hnull (.inr hn)
  obtain ⟨xs, hxs⟩ := hv
  obtain ⟨ys, hys⟩ := hw
  simp only [he, compareTyped, ht]
  split
  · exact ⟨_, rfl⟩
  · exact ⟨_, bind_eq_ok.2 ⟨xs, mapError_eq_ok.2 hxs, bind_eq_ok.2 ⟨ys, mapError_eq_ok.2 hys, rfl⟩⟩⟩

theorem compareWith_eq_error (h : (comparisonType v.type w.type).isSome)
    (hf : compareWith op rows v w = .error f) : ∃ e, f = .column (.cast e) := by
  have cast {c : Column} {t : DataType} {f : Failure}
      (h : (c.castCells t).mapError Failure.column = .error f) :
      ∃ e, f = .column (.cast e) := by
    obtain ⟨g, hg, rfl⟩ := mapError_eq_error.1 h
    obtain ⟨e, rfl⟩ := Column.castCells_eq_error hg
    exact ⟨e, rfl⟩
  obtain ⟨a, b, rfl, rfl⟩ | ⟨-, he⟩ := compareWith_cases op rows v w
  · obtain ⟨o, ho⟩ := Scalar.compare_of_comparisonType h
    rcases bind_eq_error.1 hf with hf | ⟨_, -, hf⟩
    · rw [ho] at hf
      cases hf
    · cases hf
  · rw [he, compareTyped] at hf
    split at hf
    · rename_i hn
      rw [hn] at h
      cases h
    · split at hf
      · cases hf
      · rcases bind_eq_error.1 hf with hf | ⟨xs, -, hf⟩
        · exact cast hf
        rcases bind_eq_error.1 hf with hf | ⟨ys, -, hf⟩
        · exact cast hf
        · cases hf

theorem truths_of_isTruthType (h : Expr.isTruthType v.type) : ∃ ts, v.truths rows = .ok ts := by
  rw [← type_toColumn rows v] at h
  unfold truths
  generalize v.toColumn rows = c at h
  obtain ⟨type, cells⟩ := c
  simp only [Expr.isTruthType, Bool.or_eq_true, decide_eq_true_eq] at h
  obtain rfl | rfl := h
  · exact ⟨_, rfl⟩
  · exact ⟨_, rfl⟩

theorem combine_of_isTruthType {g : Option Bool → Option Bool → Option Bool}
    (hv : Expr.isTruthType v.type) (hw : Expr.isTruthType w.type) :
    ∃ u, combine g rows v w = .ok u := by
  obtain ⟨xs, hxs⟩ : ∃ xs, v.truths rows = .ok xs := truths_of_isTruthType hv
  obtain ⟨ys, hys⟩ : ∃ ys, w.truths rows = .ok ys := truths_of_isTruthType hw
  have columns : ∃ u, (do
      let xs ← v.truths rows
      let ys ← w.truths rows
      return ofTruths (List.zipWith g xs ys)) = Except.ok u :=
    ⟨_, bind_eq_ok.2 ⟨xs, hxs, bind_eq_ok.2 ⟨ys, hys, rfl⟩⟩⟩
  cases v with
  | column c => exact columns
  | scalar a =>
    cases w with
    | column d => exact columns
    | scalar b =>
      obtain ⟨x, hx⟩ := Scalar.truth_of_isTruthType hv
      obtain ⟨y, hy⟩ := Scalar.truth_of_isTruthType hw
      exact ⟨_, bind_eq_ok.2 ⟨x, mapError_eq_ok.2 hx, bind_eq_ok.2 ⟨y, mapError_eq_ok.2 hy, rfl⟩⟩⟩

theorem negate_of_isTruthType (h : Expr.isTruthType v.type) : ∃ u, negate rows v = .ok u := by
  cases v with
  | scalar s =>
    obtain ⟨x, hx⟩ := Scalar.truth_of_isTruthType h
    exact ⟨_, bind_eq_ok.2 ⟨x, mapError_eq_ok.2 hx, rfl⟩⟩
  | column c =>
    obtain ⟨ts, hts⟩ : ∃ ts, (column c).truths rows = .ok ts := truths_of_isTruthType h
    exact ⟨_, bind_eq_ok.2 ⟨ts, hts, rfl⟩⟩

theorem fills_scalar (s : Scalar) : (scalar s).Fills rows := Column.length_constant s rows

theorem Fills.truths {ts : List (Option Bool)} (h : v.Fills rows) (hts : v.truths rows = .ok ts) :
    ts.length = rows := by
  unfold Fills at h
  unfold Operand.truths at hts
  generalize v.toColumn rows = c at h hts
  split at hts
  · cases hts
    exact h
  · cases hts
    exact (List.length_map _).trans h
  · cases hts

theorem fills_ofTruths {ts : List (Option Bool)} (h : ts.length = rows) :
    (ofTruths ts).Fills rows := h

theorem Fills.combine {g : Option Bool → Option Bool → Option Bool} (hv : v.Fills rows)
    (hw : w.Fills rows) (h : Operand.combine g rows v w = .ok u) : u.Fills rows := by
  cases combined h with
  | single => exact fills_scalar _
  | byRow _ hs ht =>
    exact fills_ofTruths (by rw [List.length_zipWith, hv.truths hs, hw.truths ht, Nat.min_self])

theorem Fills.compareWith (hv : v.Fills rows) (hw : w.Fills rows)
    (h : Operand.compareWith op rows v w = .ok u) :
    u.Fills rows := by
  cases compared h with
  | single | nulls => exact fills_scalar _
  | cells _ _ _ hxs hys =>
    refine fills_ofTruths ?_
    rw [List.length_zipWith, Column.length_castCells hxs, Column.length_castCells hys, hv, hw,
      Nat.min_self]

theorem Fills.memberOf (hv : v.Fills rows) (h : Expr.memberOf v rows set = .ok u) :
    u.Fills rows := by
  cases set with
  | nil =>
    cases h
    exact fills_scalar _
  | cons s set =>
    obtain ⟨first, hfirst, h⟩ := bind_eq_ok.1 h
    refine foldlM_preserves (fun s _ found next hfound hnext => ?_)
      (hv.compareWith (fills_scalar s) hfirst) h
    obtain ⟨c, hc, hnext⟩ := bind_eq_ok.1 hnext
    exact hfound.combine (hv.compareWith (fills_scalar s) hc) hnext

theorem Fills.negate (hv : v.Fills rows) (h : Operand.negate rows v = .ok u) : u.Fills rows := by
  cases v with
  | scalar s =>
    obtain ⟨_, -, h⟩ := bind_eq_ok.1 h
    cases h
    exact fills_scalar _
  | column c =>
    obtain ⟨ts, hts, h⟩ := bind_eq_ok.1 h
    cases h
    exact fills_ofTruths ((List.length_map _).trans (hv.truths hts))

theorem Fills.validity (hv : v.Fills rows) : v.validity.Fills rows := by
  cases v with
  | scalar s => exact fills_scalar _
  | column c =>
    refine fills_ofTruths ?_
    rw [List.length_map, Column.valid, List.length_map]
    exact hv

theorem Fills.castTo {t : DataType} (hv : v.Fills rows) (h : Operand.castTo t v = .ok u) :
    u.Fills rows := by
  cases v with
  | scalar s =>
    obtain ⟨s', -, h⟩ := bind_eq_ok.1 h
    cases h
    exact fills_scalar s'
  | column c =>
    obtain ⟨d, hd, h⟩ := bind_eq_ok.1 h
    cases h
    exact (Column.length_cast (mapError_eq_ok.1 hd)).trans hv

theorem castTo_eq_error {t : DataType} (h : v.castTo t = .error f) :
    (∃ s, v = scalar s ∧ s.castTo t = .error f) ∨ ∃ e, f = .column (.cast e) := by
  cases v with
  | scalar s =>
    rcases bind_eq_error.1 h with h | ⟨_, -, h⟩
    · exact .inl ⟨s, rfl, h⟩
    · cases h
  | column c =>
    rcases bind_eq_error.1 h with h | ⟨_, -, h⟩
    · obtain ⟨g, hg, rfl⟩ := mapError_eq_error.1 h
      obtain ⟨e, rfl⟩ := Column.cast_eq_error hg
      exact .inr ⟨e, rfl⟩
    · cases h

theorem isTruthType_boolean : Expr.isTruthType .boolean := rfl

theorem memberOf_eq_error (h : ∀ s ∈ set, (comparisonType v.type s.dataType).isSome)
    (hf : Expr.memberOf v rows set = .error f) : ∃ e, f = .column (.cast e) := by
  cases set with
  | nil => cases hf
  | cons s set =>
    rw [List.forall_mem_cons] at h
    rcases bind_eq_error.1 hf with hf | ⟨first, hfirst, hf⟩
    · exact compareWith_eq_error (w := .scalar s) h.1 hf
    -- what was found so far is a truth value, so that only the next comparison fails
    obtain ⟨s', hs', found, hfound, hf⟩ := foldlM_eq_error (P := fun found => found.type = .boolean)
      (fun s _ found next _ hnext => by
        obtain ⟨_, -, hnext⟩ := bind_eq_ok.1 hnext
        exact type_combine hnext)
      (type_compareWith hfirst) hf
    rcases bind_eq_error.1 hf with hf | ⟨c, hc, hf⟩
    · exact compareWith_eq_error (w := .scalar s') (h.2 s' hs') hf
    · obtain ⟨u, hu⟩ : ∃ u, combine kleeneOr rows found c = .ok u :=
        combine_of_isTruthType (hfound ▸ isTruthType_boolean)
          (type_compareWith hc ▸ isTruthType_boolean)
      cases hu.symm.trans hf

end Operand

namespace Expr

variable {permitted : DataType → DataType → Prop} {b : Batch} {e u : Expr} {t : DataType}
  {v : Operand} {f : Failure}

theorem column?_of_field? {name : String} {g : Field} (h : b.schema.field? name = some g) :
    ∃ c, b.column? name = some c ∧ c.type = g.type := by
  rw [Schema.field?, Batch.schema, List.find?_map] at h
  obtain ⟨s, hs, rfl⟩ := Option.map_eq_some_iff.1 h
  exact ⟨s.column, Option.map_eq_some_iff.2 ⟨s, hs, rfl⟩, rfl⟩

theorem HasType.type_operand (h : HasType permitted b.schema e t)
    (hp : ∀ l t, permitted l t → t.plain = t) (hv : e.operand b = .ok v) : v.type = t := by
  cases h with
  | field hf =>
    obtain ⟨c, hc, ht⟩ := column?_of_field? hf
    simp only [operand, hc] at hv
    cases hv
    exact ht
  | lit s =>
    cases hv
    rfl
  | cast _ ht =>
    rw [operand_cast] at hv
    obtain ⟨_, -, hv⟩ := bind_eq_ok.1 hv
    obtain hv | ⟨-, hv⟩ := Operand.type_castTo hv
    · exact hv
    · exact hv.trans (hp _ _ ht)
  | _ => exact type_of_asks hv rfl

/-- How evaluation over a batch fails: cells cannot be cast, or a single value that a part has
cannot. -/
inductive CastFailsOn (b : Batch) (e : Expr) : Failure → Prop
  | cells (c : CastFault) : CastFailsOn b e (.column (.cast c))
  | single {x : Expr} {t : DataType} {v : Scalar} {f : Failure} : (x, t) ∈ e.casts →
      x.operand b = .ok (.scalar v) → v.castTo t = .error f → CastFailsOn b e f

theorem CastFailsOn.mono (h : CastFailsOn b e f) (hu : ∀ c ∈ e.casts, c ∈ u.casts) :
    CastFailsOn b u f := by
  cases h with
  | cells c => exact .cells c
  | single hc hv hf => exact .single (hu _ hc) hv hf

theorem CastFailsOn.of_column (h : ∃ c, f = .column (.cast c)) : CastFailsOn b e f := by
  obtain ⟨c, rfl⟩ := h
  exact .cells c

theorem HasType.castFailsOn (h : HasType permitted b.schema e t)
    (hp : ∀ l t, permitted l t → t.plain = t) (hf : e.operand b = .error f) :
    CastFailsOn b e f := by
  induction h generalizing f with
  | field hg =>
    obtain ⟨c, hc, -⟩ := column?_of_field? hg
    simp only [operand, hc] at hf
    cases hf
  | lit => cases hf
  | compare ha hb hc iha ihb =>
    rcases bind_eq_error.1 hf with hf | ⟨v, hv, hf⟩
    · exact (iha hf).mono fun c hc => List.mem_append_left _ hc
    rcases bind_eq_error.1 hf with hf | ⟨w, hw, hf⟩
    · exact (ihb hf).mono fun c hc => List.mem_append_right _ hc
    rw [← ha.type_operand hp hv, ← hb.type_operand hp hw] at hc
    exact .of_column (Operand.compareWith_eq_error hc hf)
  | and ha hb hl hr iha ihb | or ha hb hl hr iha ihb =>
    rcases bind_eq_error.1 hf with hf | ⟨v, hv, hf⟩
    · exact (iha hf).mono fun c hc => List.mem_append_left _ hc
    rcases bind_eq_error.1 hf with hf | ⟨w, hw, hf⟩
    · exact (ihb hf).mono fun c hc => List.mem_append_right _ hc
    rw [← ha.type_operand hp hv] at hl
    rw [← hb.type_operand hp hw] at hr
    obtain ⟨u, hu⟩ := Operand.combine_of_isTruthType hl hr
    cases hu.symm.trans hf
  | not he ht ih =>
    rw [operand_not] at hf
    rcases bind_eq_error.1 hf with hf | ⟨v, hv, hf⟩
    · exact (ih hf).mono fun c hc => hc
    rw [← he.type_operand hp hv] at ht
    obtain ⟨u, hu⟩ : ∃ u, v.negate b.rows = .ok u := Operand.negate_of_isTruthType ht
    cases hu.symm.trans hf
  | member he hset ih =>
    unfold operand at hf
    split at hf
    · cases hf
    rcases bind_eq_error.1 hf with hf | ⟨v, hv, hf⟩
    · exact (ih hf).mono fun c hc => hc
    rw [← he.type_operand hp hv] at hset
    exact .of_column (Operand.memberOf_eq_error hset hf)
  | isValid _ ih =>
    rw [operand_isValid] at hf
    rcases bind_eq_error.1 hf with hf | ⟨v, -, hf⟩
    · exact (ih hf).mono fun c hc => hc
    · cases hf
  | cast _ _ ih =>
    rw [operand_cast] at hf
    rcases bind_eq_error.1 hf with hf | ⟨v, hv, hf⟩
    · exact (ih hf).mono fun c hc => List.mem_append_left _ hc
    rcases Operand.castTo_eq_error hf with ⟨s, rfl, hs⟩ | hcells
    · exact .single (mem_casts_cast _ _) hv hs
    · exact .of_column hcells

theorem fills_operand (h : e.operand b = .ok v) : v.Fills b.rows := by
  induction e generalizing v with
  | field name =>
    obtain ⟨c, hc, rfl⟩ := operand_field_eq_ok h
    exact b.length_of_column? hc
  | lit s =>
    cases h
    exact Operand.fills_scalar s
  | compare op x y ihx ihy =>
    obtain ⟨l, hl, h⟩ := bind_eq_ok.1 h
    obtain ⟨r, hr, h⟩ := bind_eq_ok.1 h
    exact (ihx hl).compareWith (ihy hr) h
  | and x y ihx ihy | or x y ihx ihy =>
    obtain ⟨l, hl, h⟩ := bind_eq_ok.1 h
    obtain ⟨r, hr, h⟩ := bind_eq_ok.1 h
    exact (ihx hl).combine (ihy hr) h
  | not e ih =>
    rw [operand_not] at h
    obtain ⟨w, hw, h⟩ := bind_eq_ok.1 h
    exact (ih hw).negate h
  | isValid e ih =>
    rw [operand_isValid] at h
    obtain ⟨w, hw, h⟩ := bind_eq_ok.1 h
    cases h
    exact (ih hw).validity
  | member e set ih =>
    unfold operand at h
    split at h
    · cases h
      exact Operand.fills_scalar _
    · obtain ⟨w, hw, h⟩ := bind_eq_ok.1 h
      exact (ih hw).memberOf h
  | cast e t ih =>
    rw [operand_cast] at h
    obtain ⟨w, hw, h⟩ := bind_eq_ok.1 h
    exact (ih hw).castTo h

end Expr

def CastsToScalar (l t : DataType) : Prop := castable l t ∧ ∃ s, t = .scalar s

theorem CastsToScalar.plain {l t : DataType} (h : CastsToScalar l t) : t.plain = t := by
  obtain ⟨-, s, rfl⟩ := h
  rfl

theorem CastsToScalar.standsFor {l l' t : DataType} (h : CastsToScalar l t) (hl : l'.StandsFor l) :
    CastsToScalar l' t := by
  obtain ⟨hc, s, rfl⟩ := h
  refine ⟨?_, s, rfl⟩
  obtain rfl | rfl | rfl := hl
  · exact hc
  · induction l with
    | dictionary k l ih =>
      refine ih ?_
      simp only [castable, Bool.or_eq_true, decide_eq_true_eq, reduceCtorEq, false_or] at hc ⊢
      exact .inr hc
    | _ => exact hc
  · cases s <;> rfl

namespace Scan

variable {d : Dataset} {r : ScanRequest} {s : Scan}

/--
The filter of a scan that was built, with casts to types of single values, is a truth value or a
null, and over batches of the schema it has one value of its type a row, unless a cast fails: of the
cells of a column that are broken, or of a single value that some part has in all rows.
-/
theorem eval_build (h : build d r = .ok s) (hc : ∀ c ∈ r.filter.casts, ∃ t, c.2 = .scalar t) :
    ∃ t, s.filter.typeIn d.schema = .ok t ∧ Expr.isTruthType t ∧ ∀ b : Batch, b.schema = d.schema →
      (∃ c, s.filter.eval b = .ok c ∧ c.type = t ∧ c.length = b.rows) ∨
        ∃ f, Expr.CastFailsOn b s.filter f ∧ s.filter.eval b = .error f := by
  obtain ⟨t, ht, htruth⟩ := typeIn_build h
  obtain ⟨rfl, hfold, -⟩ := build_eq_ok h
  have htyped : Expr.HasType CastsToScalar s.dataset.schema r.filter t :=
    (Expr.typeIn_eq_ok.1 ht).mono fun c hmem l hl => ⟨hl, hc c hmem⟩
  have hnone : Expr.Admits s.dataset.schema fun _ => Facts.none_ := fun n g v _ hv => by cases hv
  obtain ⟨t', ht', hstands⟩ :=
    (Expr.simplified_fold hfold).hasType htyped hnone fun _ _ _ hl => hl.standsFor
  refine ⟨t', Expr.typeIn_eq_ok.2 (ht'.mono fun _ _ _ hl => hl.1), hstands.isTruthType htruth,
    fun b hb => ?_⟩
  rw [← hb] at ht'
  cases hv : s.filter.operand b with
  | ok v =>
    refine .inl ⟨_, bind_eq_ok.2 ⟨v, hv, rfl⟩, ?_, Expr.fills_operand hv⟩
    rw [Operand.type_toColumn]
    exact ht'.type_operand (fun _ _ => CastsToScalar.plain) hv
  | error f =>
    exact .inr ⟨f, ht'.castFailsOn (fun _ _ => CastsToScalar.plain) hv, bind_eq_error.2 (.inl hv)⟩

section OneRow

def oneRow : Batch where
  rows := 1
  columns := [⟨"k", true, ⟨.dictionary .int32 .utf8, [some "7"]⟩, .empty⟩,
    ⟨"x", true, ⟨.int .int32, [some ⟨7, by decide, by decide⟩]⟩, .empty⟩]
  sized := by simp [Column.length]

def isWritten : ScanRequest :=
  ⟨.compare .eq (.field "k") (.cast (.field "x") .utf8), none, .default_⟩

theorem eval_build_oneRow : ∃ s t c, build ⟨[], oneRow.schema⟩ isWritten = .ok s ∧
    s.filter.typeIn oneRow.schema = .ok t ∧ s.filter.eval oneRow = .ok c ∧ c.type = t ∧
    c.length = 1 := by
  have hs : ∃ s, build ⟨[], oneRow.schema⟩ isWritten = .ok s ∧
      (s.filter.eval oneRow).toOption.isSome :=
    ⟨_, rfl, by decide⟩
  obtain ⟨s, hs, hsome⟩ := hs
  have hcasts : ∀ c ∈ isWritten.filter.casts, ∃ t, c.2 = .scalar t := by
    intro c hc
    rw [List.mem_singleton.1 hc]
    exact ⟨.utf8, rfl⟩
  obtain ⟨t, ht, -, heval⟩ := eval_build hs hcasts
  rcases heval oneRow rfl with ⟨c, hc, htype, hlen⟩ | ⟨f, -, h⟩
  · exact ⟨s, t, c, hs, ht, hc, htype, hlen⟩
  · rw [h] at hsome
    cases hsome

def oneNull : Batch where
  rows := 1
  columns := [⟨"n", true, ⟨.null, [none]⟩, .empty⟩]
  sized := by simp [Column.length]

def isNumeral : Expr :=
  .isValid (.cast (.cast (.isValid (.compare .eq (.field "n") (.field "n"))) .utf8) (.int .int32))

/-- Nulls of no type are compared once for all rows, and the text of the answer is cast strictly. -/
theorem eval_build_oneNull : ∃ s, build ⟨[], oneNull.schema⟩ ⟨isNumeral, none, .default_⟩ = .ok s ∧
    s.filter.eval oneNull =
      .error (TypeFault.cast (.ofText "false") (.int .int32) (.unreadable "false" (.int .int32))) :=
  ⟨_, rfl, rfl⟩

end OneRow

end Scan

end TableScan
