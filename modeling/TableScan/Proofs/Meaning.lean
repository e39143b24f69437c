import TableScan.Batch
import TableScan.Proofs.Quiet

namespace TableScan

open Value (ofCell ofScalar ofTruth)

abbrev Row : Type := String → Option Value

def and? : Option (Option Bool) → Option (Option Bool) → Option (Option Bool)
  | some (some false), _ | _, some (some false) => some (some false)
  | some a, some b => some (kleeneAnd a b)
  | _, _ => none

def or? : Option (Option Bool) → Option (Option Bool) → Option (Option Bool)
  | some (some true), _ | _, some (some true) => some (some true)
  | some a, some b => some (kleeneOr a b)
  | _, _ => none

def Value.member? (x : Value) : List Scalar → Option (Option Bool)
  | [] => some (some false)
  | s :: set => or? (Value.compare? .eq x (ofScalar s)) (x.member? set)

namespace Expr

def value? (ρ : Row) : Expr → Option Value
  | field name => ρ name
  | lit v => some (ofScalar v)
  | compare op a b => do (Value.compare? op (← a.value? ρ) (← b.value? ρ)).map ofTruth
  | and a b => (and? ((a.value? ρ).bind Value.truth?) ((b.value? ρ).bind Value.truth?)).map ofTruth
  | or a b => (or? ((a.value? ρ).bind Value.truth?) ((b.value? ρ).bind Value.truth?)).map ofTruth
  | not e => ((e.value? ρ).bind Value.truth?).map fun t => ofTruth (kleeneNot t)
  | isValid e => (e.value? ρ).map fun x => ofTruth (some !x.isNull)
  | member e set =>
    if set = [] then some (ofTruth (some false))
    else (e.value? ρ).bind fun x => (x.member? set).map ofTruth
  | cast e t => (e.value? ρ).bind (Value.cast? t)

def truth? (ρ : Row) (e : Expr) : Option (Option Bool) := (e.value? ρ).bind Value.truth?

def isQuiet : Expr → Bool
  | field _ => true
  | lit v => (ofScalar v).isQuiet
  | compare _ a b | and a b | or a b => a.isQuiet && b.isQuiet
  | not e | isValid e | cast e _ => e.isQuiet
  | member e set => e.isQuiet && set.all fun s => (ofScalar s).isQuiet

def isEncoded (s : Schema) : Expr → Bool
  | field name => (s.field? name).any (·.type.isDictionary)
  | and a b | or a b => a.isEncoded s || b.isEncoded s
  | cast _ t => t.isDictionary
  | _ => false

def recodes (s : Schema) : Expr → Bool
  | field _ | lit _ => false
  | compare _ a b | and a b | or a b => a.recodes s || b.recodes s
  | not e | isValid e | member e _ => e.recodes s
  | cast e t => e.recodes s || (e.isEncoded s && t.isRepacked)

end Expr

def Column.value? (c : Column) (i : Nat) : Option Value := c.cells[i]?.map (ofCell c.type)

def Batch.row (b : Batch) (i : Nat) : Row := fun name => (b.column? name).bind (·.value? i)

theorem DataType.plain_plain (t : DataType) : t.plain.plain = t.plain := by
  induction t with
  | dictionary k t ih => exact ih
  | _ => rfl

namespace Operand

def at? (i : Nat) : Operand → Option Value
  | column c => c.value? i
  | scalar s => some (ofScalar s)

def IsSingle : Operand → Prop
  | column _ => False
  | scalar _ => True

def isQuiet : Operand → Bool
  | column _ => true
  | scalar s => (ofScalar s).isQuiet

variable {rows i : Nat} {v w u : Operand} {x y : Value}

theorem value?_constant (s : Scalar) (hi : i < rows) :
    (Column.constant s rows).value? i = some (ofScalar s) :=
  congrArg (Option.map (ofCell s.dataType)) (List.getElem?_replicate_of_lt hi)

theorem value?_toColumn (v : Operand) (hi : i < rows) : (v.toColumn rows).value? i = v.at? i := by
  cases v with
  | column c => rfl
  | scalar s => exact value?_constant s hi

theorem type_toColumn (rows : Nat) (v : Operand) : (v.toColumn rows).type = v.type := by
  cases v <;> rfl

theorem at?_ofTruths {ts : List (Option Bool)} {t : Option Bool} (h : ts[i]? = some t) :
    (ofTruths ts).at? i = some (ofTruth t) := by
  simp [ofTruths, at?, Column.value?, h, ofTruth]

theorem truths_getElem? {ts : List (Option Bool)} (h : v.truths rows = .ok ts) (hi : i < rows)
    (hx : v.at? i = some x) : ∃ t, ts[i]? = some t ∧ x.truth? = some t := by
  rw [← value?_toColumn v hi] at hx
  simp only [truths] at h
  generalize v.toColumn rows = col at h hx
  obtain ⟨c, hc, rfl⟩ := Option.map_eq_some_iff.1 hx
  split at h
  · cases h
    exact ⟨c, hc, Value.truth?_ofTruth c⟩
  · cases h
    refine ⟨none, List.getElem?_map.trans (congrArg (Option.map fun _ => none) hc), ?_⟩
    cases c with
    | none => rfl
    | some a => exact Empty.elim a
  · cases h

theorem truth_scalar {s : Scalar} {t : Option Bool} (h : s.truth = .ok t) :
    (ofScalar s).truth? = some t := by
  unfold Scalar.truth at h
  split at h
  · rename_i value
    cases h
    cases value with
    | none => rfl
    | some a => exact Empty.elim a
  · cases h
    exact Value.truth?_ofTruth _
  · cases h

/-- How a connective comes about: from single values, or row by row. -/
inductive Combined (f : Option Bool → Option Bool → Option Bool) (rows : Nat) :
    Operand → Operand → Operand → Prop
  | single {a b : Scalar} {s t : Option Bool} : a.truth = .ok s → b.truth = .ok t →
      Combined f rows (scalar a) (scalar b) (scalar (.ofTruth (f s t)))
  | byRow {v w : Operand} {ss ts : List (Option Bool)} :
      ¬(v.IsSingle ∧ w.IsSingle) → v.truths rows = .ok ss →
      w.truths rows = .ok ts → Combined f rows v w (ofTruths (List.zipWith f ss ts))

theorem combined {f : Option Bool → Option Bool → Option Bool} (h : combine f rows v w = .ok u) :
    Combined f rows v w u := by
  have byRow (hne : ¬(v.IsSingle ∧ w.IsSingle)) (h : (do
      let xs ← v.truths rows
      let ys ← w.truths rows
      return ofTruths (List.zipWith f xs ys)) = Except.ok u) : Combined f rows v w u := by
    obtain ⟨ss, hs, h⟩ := bind_eq_ok.1 h
    obtain ⟨ts, ht, h⟩ := bind_eq_ok.1 h
    cases h
    exact .byRow hne hs ht
  cases v with
  | column c => exact byRow (fun hne => hne.1) h
  | scalar a =>
    cases w with
    | column c => exact byRow (fun hne => hne.2) h
    | scalar b =>
      obtain ⟨s, hs, h⟩ := bind_eq_ok.1 h
      obtain ⟨t, ht, h⟩ := bind_eq_ok.1 h
      cases h
      exact .single (mapError_eq_ok.1 hs) (mapError_eq_ok.1 ht)

theorem combine_at? {f : Option Bool → Option Bool → Option Bool} (h : combine f rows v w = .ok u)
    (hi : i < rows) (hx : v.at? i = some x) (hy : w.at? i = some y) :
    ∃ s t, x.truth? = some s ∧ y.truth? = some t ∧ u.at? i = some (ofTruth (f s t)) := by
  cases combined h with
  | single hs ht =>
    cases hx
    cases hy
    exact ⟨_, _, truth_scalar hs, truth_scalar ht, rfl⟩
  | byRow _ hs ht =>
    obtain ⟨s, hs, hxs⟩ := truths_getElem? hs hi hx
    obtain ⟨t, ht, hyt⟩ := truths_getElem? ht hi hy
    exact ⟨s, t, hxs, hyt, at?_ofTruths (by simp [List.getElem?_zipWith, hs, ht])⟩

theorem magnitude?_none (t : ScalarType) : Scalar.magnitude? ⟨t, none⟩ = none := by cases t <;> rfl

theorem compare_scalar {a b : Scalar} {o : Option Ordering} (op : Comparison)
    (h : a.compare b = .ok o)
    (hquiet : a.type = b.type → (ofScalar a).isQuiet ∧ (ofScalar b).isQuiet) :
    Value.compare? op (ofScalar a) (ofScalar b) = some (o.map op.holds) := by
  obtain ⟨p, a⟩ := a
  obtain ⟨q, b⟩ := b
  simp only [Scalar.compare] at h
  split at h
  · cases h
  · rename_i ht
    have ht' : (comparisonType (.scalar p) (.scalar q)).isSome := by
      simpa [Option.isSome_iff_ne_none, Scalar.dataType] using ht
    cases a with
    | none =>
      simp only [magnitude?_none, Except.ok.injEq] at h
      subst h
      rfl
    | some a =>
      cases b with
      | none =>
        cases hm : Scalar.magnitude? ⟨p, some a⟩ <;>
          simp only [hm, magnitude?_none, Except.ok.injEq] at h <;> subst h <;>
          exact Value.compare?_null_right _ _
      | some b =>
        obtain ⟨m, n, r, hm, hn, hr⟩ := Value.comparable_of_comparisonType (a := a) (b := b) ht'
        have hm' : Scalar.magnitude? ⟨p, some a⟩ = some m := hm
        have hn' : Scalar.magnitude? ⟨q, some b⟩ = some n := hn
        simp only [hm', hn', hr, Except.ok.injEq] at h
        subst h
        exact Value.compare?_of_magnitude op ht' hm hn hr hquiet

theorem comparisonType_plain {p q t : DataType} (h : comparisonType p q = some t) :
    comparisonType p.plain q.plain = some t ∧ t.isDictionary = false ∧
      (t = .null → p.plain = .null ∧ q.plain = .null) := by
  refine ⟨by simpa only [comparisonType, DataType.plain_plain] using h, ?_⟩
  have hp := p.not_isDictionary_plain
  have hq := q.not_isDictionary_plain
  simp only [comparisonType] at h
  generalize p.plain = l at h hp
  generalize q.plain = r at h hq
  split at h
  · cases h
    exact ⟨hp, fun e => ⟨e, by simp_all⟩⟩
  · split at h
    · cases h
      exact ⟨hq, fun e => by simp_all⟩
    · split at h
      · cases h
        exact ⟨hp, fun e => by simp_all⟩
      · split at h
        · split at h
          · cases h; exact ⟨rfl, fun e => by cases e⟩
          · split at h
            · cases h; exact ⟨rfl, fun e => by cases e⟩
            · split at h <;> cases h <;> exact ⟨rfl, fun e => by cases e⟩
        · split at h <;> cases h <;> exact ⟨rfl, fun e => by cases e⟩

theorem compare?_ofCell {p q t : DataType} {a : Option p.Carrier} {b : Option q.Carrier}
    {c d : Option t.Carrier} (op : Comparison) (ht : comparisonType p q = some t)
    (ha : (ofCell p a).asCell? t = some c) (hb : (ofCell q b).asCell? t = some d) :
    Value.compare? op (ofCell p a) (ofCell q b) = some (compareCells op c d) := by
  cases a with
  | none =>
    cases ha
    rfl
  | some a =>
    cases b with
    | none =>
      cases hb
      cases c <;> exact Value.compare?_null_right _ _
    | some b =>
      obtain ⟨a', ha'⟩ := Value.ofSome_plain p a
      obtain ⟨b', hb'⟩ := Value.ofSome_plain q b
      simp only [Value.ofCell_some, ha', hb'] at ha hb ⊢
      simp [Value.compare?, (comparisonType_plain ht).1, ha, hb]

def Calm (v w : Operand) : Prop :=
  ∀ a b, v = scalar a → w = scalar b → a.type = b.type → (ofScalar a).isQuiet ∧ (ofScalar b).isQuiet

theorem calm_of_isQuiet (hv : v.isQuiet) (hw : w.isQuiet) : v.Calm w := by
  rintro a b rfl rfl -
  exact ⟨hv, hw⟩

/-- The comparison of operands that are not two single values: as columns of the type that they
compare in. -/
def compareTyped (op : Comparison) (rows : Nat) (v w : Operand) : Except Failure Operand :=
  match comparisonType v.type w.type with
  | none => .error (TypeFault.compare v.type w.type)
  | some t =>
    if t = .null then .ok (scalar (.ofTruth none))
    else compareColumns op t (v.toColumn rows) (w.toColumn rows)

theorem compareWith_cases (op : Comparison) (rows : Nat) (v w : Operand) :
    (∃ a b, v = scalar a ∧ w = scalar b) ∨
      (¬(v.IsSingle ∧ w.IsSingle) ∧ compareWith op rows v w = compareTyped op rows v w) := by
  cases v with
  | column c => exact .inr ⟨fun h => h.1, rfl⟩
  | scalar a =>
    cases w with
    | column d => exact .inr ⟨fun h => h.2, rfl⟩
    | scalar b => exact .inl ⟨a, b, rfl, rfl⟩

/-- How a comparison comes about: of single values, of nulls of no type all at once, or cell by
cell. -/
inductive Compared (op : Comparison) (rows : Nat) : Operand → Operand → Operand → Prop
  | single {a b : Scalar} {o : Option Ordering} : a.compare b = .ok o →
      Compared op rows (scalar a) (scalar b) (scalar (.ofTruth (o.map op.holds)))
  | nulls {v w : Operand} : ¬(v.IsSingle ∧ w.IsSingle) → comparisonType v.type w.type = some .null →
      Compared op rows v w (scalar (.ofTruth none))
  | cells {v w : Operand} {t : DataType} {xs ys : List (Option t.Carrier)} :
      ¬(v.IsSingle ∧ w.IsSingle) →
      comparisonType v.type w.type = some t → t ≠ .null → (v.toColumn rows).castCells t = .ok xs →
      (w.toColumn rows).castCells t = .ok ys →
      Compared op rows v w (ofTruths (List.zipWith (compareCells op) xs ys))

theorem compared {op : Comparison} (h : compareWith op rows v w = .ok u) :
    Compared op rows v w u := by
  obtain ⟨a, b, rfl, rfl⟩ | ⟨hne, he⟩ := compareWith_cases op rows v w
  · obtain ⟨o, ho, h⟩ := bind_eq_ok.1 h
    cases h
    exact .single (mapError_eq_ok.1 ho)
  · rw [he, compareTyped] at h
    split at h
    · cases h
    · rename_i t ht
      split at h
      · rename_i hn
        cases h
        exact .nulls hne (hn ▸ ht)
      · rename_i hn
        obtain ⟨xs, hxs, h⟩ := bind_eq_ok.1 h
        obtain ⟨ys, hys, h⟩ := bind_eq_ok.1 h
        cases h
        exact .cells hne ht hn (mapError_eq_ok.1 hxs) (mapError_eq_ok.1 hys)

theorem ofCell_of_null {t : DataType} (h : t.plain = .null) (a : Option t.Carrier) :
    ofCell t a = .null := by
  cases a with
  | none => rfl
  | some a =>
    obtain ⟨e, -⟩ := Value.ofSome_plain t a
    rw [h] at e
    exact Empty.elim e

theorem eq_null_of_at? (h : v.type.plain = .null) (hx : v.at? i = some x) : x = .null := by
  cases v with
  | column c =>
    obtain ⟨a, -, rfl⟩ := Option.map_eq_some_iff.1 hx
    exact ofCell_of_null h a
  | scalar s =>
    cases hx
    exact ofCell_of_null h s.value

theorem compareWith_at? {op : Comparison} (h : compareWith op rows v w = .ok u) (hi : i < rows)
    (hx : v.at? i = some x) (hy : w.at? i = some y) (hquiet : v.Calm w) :
    ∃ r, Value.compare? op x y = some r ∧ u.at? i = some (ofTruth r) := by
  cases compared h with
  | single ho =>
    cases hx
    cases hy
    exact ⟨_, compare_scalar op ho (hquiet _ _ rfl rfl), rfl⟩
  | nulls _ ht =>
    obtain ⟨-, -, hnull⟩ := comparisonType_plain ht
    rw [eq_null_of_at? (hnull rfl).1 hx]
    exact ⟨none, rfl, rfl⟩
  | @cells _ _ t _ _ _ ht _ hxs hys =>
    rw [← type_toColumn rows v, ← type_toColumn rows w] at ht
    rw [← value?_toColumn v hi] at hx
    rw [← value?_toColumn w hi] at hy
    obtain ⟨a, ha, rfl⟩ := Option.map_eq_some_iff.1 hx
    obtain ⟨b, hb, rfl⟩ := Option.map_eq_some_iff.1 hy
    have hd : t.isRepacked = false := by
      cases t with
      | dictionary => cases (comparisonType_plain ht).2.1
      | _ => rfl
    obtain ⟨a', ha', hca⟩ := Column.castCells_getElem? hxs (fun _ => hd) ha
    obtain ⟨b', hb', hcb⟩ := Column.castCells_getElem? hys (fun _ => hd) hb
    exact ⟨_, compare?_ofCell op ht hca hcb,
      at?_ofTruths (by simp [List.getElem?_zipWith, ha', hb'])⟩

theorem type_combine {f : Option Bool → Option Bool → Option Bool}
    (h : combine f rows v w = .ok u) :
    u.type = .boolean := by
  cases combined h <;> rfl

theorem type_compareWith {op : Comparison} (h : compareWith op rows v w = .ok u) :
    u.type = .boolean := by
  cases compared h <;> rfl

theorem ofScalar_ofBool (b : Bool) : ofScalar (.ofBool b) = ofTruth (some b) := rfl

theorem isQuiet_of_boolean (h : v.type = .boolean) : v.isQuiet := by
  cases v with
  | column c => rfl
  | scalar s =>
    exact Value.isQuiet_ofCell_of_ne (by rw [show s.dataType = .boolean from h]; nofun) _

def negate (rows : Nat) : Operand → Except Failure Operand
  | scalar s => do return scalar (.ofTruth (kleeneNot (← s.truth.mapError .type)))
  | v => do return ofTruths ((← v.truths rows).map kleeneNot)

def validity : Operand → Operand
  | scalar s => scalar (.ofBool (!s.isNull))
  | column c => ofTruths (c.valid.map some)

def castTo (t : DataType) : Operand → Except Failure Operand
  | scalar s => do return scalar (← s.castTo t)
  | column c => do return column (← (c.cast t).mapError .column)

theorem type_negate (h : negate rows v = .ok u) : u.type = .boolean := by
  unfold negate at h
  split at h
  · obtain ⟨_, -, h⟩ := bind_eq_ok.1 h
    cases h
    rfl
  · obtain ⟨_, -, h⟩ := bind_eq_ok.1 h
    cases h
    rfl

theorem type_validity (v : Operand) : v.validity.type = .boolean := by cases v <;> rfl

theorem negate_at? (h : negate rows v = .ok u) (hi : i < rows) (hx : v.at? i = some x) :
    ∃ t, x.truth? = some t ∧ u.at? i = some (ofTruth (kleeneNot t)) := by
  cases v with
  | scalar s =>
    obtain ⟨t, ht, h⟩ := bind_eq_ok.1 h
    cases h
    cases hx
    exact ⟨t, truth_scalar (mapError_eq_ok.1 ht), rfl⟩
  | column c =>
    obtain ⟨ts, hts, h⟩ := bind_eq_ok.1 h
    cases h
    obtain ⟨t, ht, hxt⟩ := truths_getElem? hts hi hx
    exact ⟨t, hxt, at?_ofTruths (by rw [List.getElem?_map, ht]; rfl)⟩

theorem validity_at? (hx : v.at? i = some x) :
    v.validity.at? i = some (ofTruth (some !x.isNull)) := by
  cases v with
  | scalar s =>
    cases hx
    rw [Value.isNull_ofScalar]
    rfl
  | column c =>
    obtain ⟨cell, hcell, rfl⟩ := Option.map_eq_some_iff.1 hx
    rw [Value.isNull_ofCell]
    refine at?_ofTruths ?_
    rw [List.getElem?_map, Column.valid, List.getElem?_map, hcell]
    cases cell <;> rfl

theorem castTo_at? {t : DataType} (h : castTo t v = .ok u) (hx : v.at? i = some x)
    (hpack : v.type.isDictionary = true → t.isRepacked = false) :
    ∃ y, x.cast? t = some y ∧ u.at? i = some y := by
  cases v with
  | scalar s =>
    obtain ⟨s', hs, h⟩ := bind_eq_ok.1 h
    cases h
    cases hx
    exact ⟨_, Value.cast?_ofScalar hs, rfl⟩
  | column c =>
    obtain ⟨d, hd, h⟩ := bind_eq_ok.1 h
    cases h
    obtain ⟨cells, hcells, rfl⟩ := map_eq_ok.1 (mapError_eq_ok.1 hd)
    obtain ⟨cell, hcell, rfl⟩ := Option.map_eq_some_iff.1 hx
    obtain ⟨y, hy, hcast⟩ := Column.castCells_getElem? hcells hpack hcell
    exact ⟨ofCell t y, congrArg (Option.map (ofCell t)) hcast, congrArg (Option.map (ofCell t)) hy⟩

theorem type_castTo {t : DataType} (h : castTo t v = .ok u) :
    u.type = t ∨ (u.IsSingle ∧ u.type = t.plain) := by
  cases v with
  | scalar s =>
    obtain ⟨s', hs, h⟩ := bind_eq_ok.1 h
    cases h
    exact .inr ⟨trivial, Scalar.dataType_castTo hs⟩
  | column c =>
    obtain ⟨d, hd, h⟩ := bind_eq_ok.1 h
    cases h
    exact .inl (Column.type_cast (mapError_eq_ok.1 hd))

theorem isDictionary_castTo {t : DataType} (h : castTo t v = .ok u)
    (hd : u.type.isDictionary = true) :
    t.isDictionary = true := by
  obtain ht | ⟨-, ht⟩ := type_castTo h
  · rwa [ht] at hd
  · rw [ht, t.not_isDictionary_plain] at hd
    cases hd

theorem isQuiet_castTo {t : DataType} (h : castTo t v = .ok u) (hv : v.isQuiet) : u.isQuiet := by
  cases v with
  | scalar s =>
    obtain ⟨s', hs, h⟩ := bind_eq_ok.1 h
    cases h
    exact Value.isQuiet_cast? (Value.cast?_ofScalar hs) (Value.isPlain_ofCell _ _) hv
  | column c =>
    obtain ⟨d, -, h⟩ := bind_eq_ok.1 h
    cases h
    rfl

theorem kleeneOr_assoc (a b c : Option Bool) :
    kleeneOr (kleeneOr a b) c = kleeneOr a (kleeneOr b c) := by
  rcases a with _ | (_ | _) <;> rcases b with _ | (_ | _) <;> rcases c with _ | (_ | _) <;> rfl

theorem kleeneOr_false (a : Option Bool) : kleeneOr a (some false) = a := by
  rcases a with _ | (_ | _) <;> rfl

theorem or?_some (a b : Option Bool) : or? (some a) (some b) = some (kleeneOr a b) := by
  rcases a with _ | (_ | _) <;> rcases b with _ | (_ | _) <;> rfl

theorem and?_some (a b : Option Bool) : and? (some a) (some b) = some (kleeneAnd a b) := by
  rcases a with _ | (_ | _) <;> rcases b with _ | (_ | _) <;> rfl

theorem foldlM_at? {set : List Scalar} {found : Operand} {t : Option Bool}
    (h : set.foldlM (fun found s => do
      combine kleeneOr rows found (← compareWith .eq rows v (.scalar s))) found = .ok u)
    (hi : i < rows) (hx : v.at? i = some x) (hf : found.at? i = some (ofTruth t))
    (hs : ∀ s ∈ set, v.Calm (scalar s)) :
    ∃ m, x.member? set = some m ∧ u.at? i = some (ofTruth (kleeneOr t m)) := by
  induction set generalizing found t with
  | nil =>
    cases h
    exact ⟨some false, rfl, by rw [kleeneOr_false]; exact hf⟩
  | cons s set ih =>
    rw [List.forall_mem_cons] at hs
    obtain ⟨new, hn, h⟩ := bind_eq_ok.1 h
    obtain ⟨c, hc, hn⟩ := bind_eq_ok.1 hn
    obtain ⟨r, hr, hcr⟩ := compareWith_at? hc hi hx rfl hs.1
    obtain ⟨t', r', ht', hr', hu⟩ := combine_at? hn hi hf hcr
    rw [Value.truth?_ofTruth] at ht' hr'
    cases ht'
    cases hr'
    obtain ⟨m, hm, hum⟩ := ih h hu hs.2
    refine ⟨kleeneOr r m, ?_, ?_⟩
    · rw [Value.member?, hr, hm, or?_some]
    · rw [← kleeneOr_assoc]
      exact hum

end Operand

namespace Expr

open Operand

theorem operand_field_eq_ok {b : Batch} {name : String} {v : Operand}
    (h : (field name).operand b = .ok v) :
    ∃ c, b.column? name = some c ∧ v = column c := by
  unfold operand at h
  split at h
  · rename_i c hc
    cases h
    exact ⟨c, hc, rfl⟩
  · cases h

theorem operand_not (b : Batch) (e : Expr) :
    (not e).operand b = (do (← e.operand b).negate b.rows) := rfl

theorem operand_isValid (b : Batch) (e : Expr) :
    (isValid e).operand b = (do return (← e.operand b).validity) := by
  rw [operand]
  cases e.operand b with
  | error f => rfl
  | ok v => cases v <;> rfl

theorem operand_cast (b : Batch) (e : Expr) (t : DataType) :
    (cast e t).operand b = (do (← e.operand b).castTo t) := rfl

/-- An operand that holds what an expression means in the rows of a batch. -/
structure Denotes (b : Batch) (e : Expr) (v : Operand) : Prop where
  value : ∀ i < b.rows, ∃ x, v.at? i = some x ∧ e.value? (b.row i) = some x
  encoded : v.type.isDictionary = true → e.isEncoded b.schema = true
  quiet : v.isQuiet = true

namespace Denotes

variable {b : Batch} {e : Expr} {v : Operand}

theorem of_boolean (ht : v.type = .boolean)
    (h : ∀ i < b.rows, ∃ x, v.at? i = some x ∧ e.value? (b.row i) = some x) : Denotes b e v :=
  ⟨h, fun hd => absurd (ht ▸ hd) nofun, isQuiet_of_boolean ht⟩

end Denotes

theorem type_memberOf {rows : Nat} {set : List Scalar} {v w : Operand}
    (h : memberOf v rows set = .ok w) :
    w.type = .boolean := by
  cases set with
  | nil =>
    cases h
    rfl
  | cons s set =>
    obtain ⟨first, hfirst, h⟩ := bind_eq_ok.1 h
    refine foldlM_preserves (P := fun found => found.type = .boolean)
      (fun s _ found next _ hnext => ?_)
      (type_compareWith hfirst) h
    obtain ⟨_, -, hnext⟩ := bind_eq_ok.1 hnext
    exact type_combine hnext

theorem memberOf_at? {rows i : Nat} {v u : Operand} {x : Value} {set : List Scalar}
    (h : memberOf v rows set = .ok u) (hi : i < rows) (hx : v.at? i = some x)
    (hs : ∀ s ∈ set, v.Calm (scalar s)) :
    ∃ m, x.member? set = some m ∧ u.at? i = some (ofTruth m) := by
  cases set with
  | nil =>
    cases h
    exact ⟨some false, rfl, rfl⟩
  | cons s set =>
    rw [List.forall_mem_cons] at hs
    obtain ⟨first, hfirst, h⟩ := bind_eq_ok.1 h
    obtain ⟨r, hr, hfr⟩ := compareWith_at? hfirst hi hx rfl hs.1
    obtain ⟨m, hm, hu⟩ := foldlM_at? h hi hx hfr hs.2
    exact ⟨_, by rw [Value.member?, hr, hm, or?_some], hu⟩

theorem memberOf_denotes {b : Batch} {e : Expr} {v u : Operand} {set : List Scalar}
    (h : memberOf v b.rows set = .ok u) (hv : Denotes b e v) (hset : set ≠ [])
    (hs : set.all fun s => (ofScalar s).isQuiet) : Denotes b (member e set) u := by
  rw [List.all_eq_true] at hs
  apply Denotes.of_boolean (type_memberOf h)
  intro i hi
  obtain ⟨x, hx, he⟩ := hv.value i hi
  obtain ⟨m, hm, hu⟩ := memberOf_at? h hi hx fun s hmem => calm_of_isQuiet hv.quiet (hs s hmem)
  exact ⟨_, hu, by simp [value?, hset, he, hm]⟩

theorem value?_column {b : Batch} {name : String} {c : Column} (h : b.column? name = some c)
    {i : Nat} (hi : i < b.rows) : ∃ x, c.value? i = some x := by
  have hl : i < c.cells.length := by
    have := b.length_of_column? h
    simp only [Column.length] at this
    omega
  exact ⟨_, congrArg (Option.map (ofCell c.type)) (List.getElem?_eq_getElem hl)⟩

theorem field?_schema {b : Batch} {name : String} {c : Column} (h : b.column? name = some c) :
    ∃ f, b.schema.field? name = some f ∧ f.type = c.type := by
  obtain ⟨s, hs, rfl⟩ := Option.map_eq_some_iff.1 h
  refine ⟨s.field, ?_, rfl⟩
  rw [Schema.field?, Batch.schema, List.find?_map]
  exact congrArg (Option.map Series.field) hs

section Operands

variable {b : Batch} {e : Expr} {v : Operand}

def asks : Expr → Bool
  | field _ | lit _ | cast _ _ => false
  | _ => true

theorem type_of_asks (h : e.operand b = .ok v) (he : e.asks) : v.type = .boolean := by
  cases e with
  | field | lit | cast => cases he
  | compare =>
    obtain ⟨_, -, h⟩ := bind_eq_ok.1 h
    obtain ⟨_, -, h⟩ := bind_eq_ok.1 h
    exact type_compareWith h
  | and | or =>
    obtain ⟨_, -, h⟩ := bind_eq_ok.1 h
    obtain ⟨_, -, h⟩ := bind_eq_ok.1 h
    exact type_combine h
  | not =>
    rw [operand_not] at h
    obtain ⟨_, -, h⟩ := bind_eq_ok.1 h
    exact type_negate h
  | member =>
    unfold operand at h
    split at h
    · cases h
      rfl
    · obtain ⟨_, -, h⟩ := bind_eq_ok.1 h
      exact type_memberOf h
  | isValid =>
    rw [operand_isValid] at h
    obtain ⟨w, -, h⟩ := bind_eq_ok.1 h
    cases h
    exact type_validity w

theorem isQuiet_operand (h : e.operand b = .ok v) (hq : e.isQuiet) : v.isQuiet := by
  induction e generalizing v with
  | field name =>
    obtain ⟨c, -, rfl⟩ := operand_field_eq_ok h
    rfl
  | lit s =>
    cases h
    exact hq
  | cast e t ih =>
    rw [operand_cast] at h
    obtain ⟨_, hw, h⟩ := bind_eq_ok.1 h
    exact isQuiet_castTo h (ih hw hq)
  | _ => exact isQuiet_of_boolean (type_of_asks h rfl)

theorem isEncoded_of_operand (h : e.operand b = .ok v) (hd : v.type.isDictionary = true) :
    e.isEncoded b.schema = true := by
  cases e with
  | field name =>
    obtain ⟨c, hc, rfl⟩ := operand_field_eq_ok h
    obtain ⟨f, hf, ht⟩ := field?_schema hc
    rw [isEncoded, hf, Option.any_some, ht]
    exact hd
  | lit s =>
    cases h
    cases hd
  | cast e t =>
    rw [operand_cast] at h
    obtain ⟨_, -, h⟩ := bind_eq_ok.1 h
    exact isDictionary_castTo h hd
  | _ =>
    rw [type_of_asks h rfl] at hd
    cases hd

end Operands

namespace Denotes

variable {b : Batch} {x y e : Expr} {v w u : Operand}

theorem column {name : String} {c : Column} (h : b.column? name = some c) :
    Denotes b (field name) (.column c) := by
  refine ⟨fun i hi => ?_, isEncoded_of_operand (by rw [operand, h]), rfl⟩
  obtain ⟨a, ha⟩ := value?_column h hi
  exact ⟨a, ha, by simp [value?, Batch.row, h, ha]⟩

theorem compare {op : Comparison} (hx : Denotes b x v) (hy : Denotes b y w)
    (h : compareWith op b.rows v w = .ok u) :
    Denotes b (.compare op x y) u := by
  refine of_boolean (type_compareWith h) fun i hi => ?_
  obtain ⟨p, hp, hvp⟩ := hx.value i hi
  obtain ⟨q, hq, hvq⟩ := hy.value i hi
  obtain ⟨t, ht, hu⟩ := compareWith_at? h hi hp hq (calm_of_isQuiet hx.quiet hy.quiet)
  exact ⟨_, hu, by simp [value?, hvp, hvq, ht]⟩

theorem connect {f : Option Bool → Option Bool → Option Bool} (hx : Denotes b x v)
    (hy : Denotes b y w) (h : combine f b.rows v w = .ok u)
    (he : ∀ ρ s t, x.truth? ρ = some s → y.truth? ρ = some t →
      e.value? ρ = some (ofTruth (f s t))) : Denotes b e u := by
  refine of_boolean (type_combine h) fun i hi => ?_
  obtain ⟨p, hp, hvp⟩ := hx.value i hi
  obtain ⟨q, hq, hvq⟩ := hy.value i hi
  obtain ⟨s, t, hs, ht, hu⟩ := combine_at? h hi hp hq
  exact ⟨_, hu, he _ s t (by rw [truth?, hvp]; exact hs) (by rw [truth?, hvq]; exact ht)⟩

theorem and (hx : Denotes b x v) (hy : Denotes b y w) (h : combine kleeneAnd b.rows v w = .ok u) :
    Denotes b (.and x y) u := by
  refine hx.connect hy h fun ρ s t hs ht => ?_
  rw [truth?] at hs ht
  rw [value?, hs, ht, and?_some]
  rfl

theorem or (hx : Denotes b x v) (hy : Denotes b y w) (h : combine kleeneOr b.rows v w = .ok u) :
    Denotes b (.or x y) u := by
  refine hx.connect hy h fun ρ s t hs ht => ?_
  rw [truth?] at hs ht
  rw [value?, hs, ht, or?_some]
  rfl

theorem negate (he : Denotes b e v) (h : v.negate b.rows = .ok u) : Denotes b (.not e) u := by
  refine of_boolean (type_negate h) fun i hi => ?_
  obtain ⟨a, ha, hva⟩ := he.value i hi
  obtain ⟨t, ht, hu⟩ := negate_at? h hi ha
  exact ⟨_, hu, by simp [value?, hva, ht]⟩

theorem validity (he : Denotes b e v) : Denotes b (.isValid e) v.validity := by
  refine of_boolean (type_validity v) fun i hi => ?_
  obtain ⟨a, ha, hva⟩ := he.value i hi
  exact ⟨_, validity_at? ha, by simp [value?, hva]⟩

theorem castTo {t : DataType} (he : Denotes b e v)
    (hr : e.isEncoded b.schema = true → t.isRepacked = false) (h : v.castTo t = .ok u) :
    Denotes b (.cast e t) u := by
  have hpack (hdict : v.type.isDictionary = true) : t.isRepacked = false := hr (he.encoded hdict)
  refine ⟨fun i hi => ?_, fun hd => ?_, isQuiet_castTo h he.quiet⟩
  · obtain ⟨a, ha, hva⟩ := he.value i hi
    obtain ⟨c, hc, hu⟩ := castTo_at? h ha hpack
    exact ⟨c, hu, by simp [value?, hva, hc]⟩
  · exact isDictionary_castTo h hd

end Denotes

theorem operand_denotes {b : Batch} {e : Expr} {v : Operand} (h : e.operand b = .ok v)
    (hq : e.isQuiet) (hr : e.recodes b.schema = false) : Denotes b e v := by
  induction e generalizing v with
  | field name =>
    obtain ⟨c, hc, rfl⟩ := operand_field_eq_ok h
    exact .column hc
  | lit s =>
    cases h
    exact ⟨fun i _ => ⟨_, rfl, rfl⟩, nofun, hq⟩
  | compare op x y ihx ihy =>
    simp only [isQuiet, Bool.and_eq_true] at hq
    simp only [recodes, Bool.or_eq_false_iff] at hr
    obtain ⟨l, hl, h⟩ := bind_eq_ok.1 h
    obtain ⟨r, hr', h⟩ := bind_eq_ok.1 h
    exact (ihx hl hq.1 hr.1).compare (ihy hr' hq.2 hr.2) h
  | and x y ihx ihy =>
    simp only [isQuiet, Bool.and_eq_true] at hq
    simp only [recodes, Bool.or_eq_false_iff] at hr
    obtain ⟨l, hl, h⟩ := bind_eq_ok.1 h
    obtain ⟨r, hr', h⟩ := bind_eq_ok.1 h
    exact (ihx hl hq.1 hr.1).and (ihy hr' hq.2 hr.2) h
  | or x y ihx ihy =>
    simp only [isQuiet, Bool.and_eq_true] at hq
    simp only [recodes, Bool.or_eq_false_iff] at hr
    obtain ⟨l, hl, h⟩ := bind_eq_ok.1 h
    obtain ⟨r, hr', h⟩ := bind_eq_ok.1 h
    exact (ihx hl hq.1 hr.1).or (ihy hr' hq.2 hr.2) h
  | not e ih =>
    rw [operand_not] at h
    obtain ⟨w, hw, h⟩ := bind_eq_ok.1 h
    exact (ih hw hq hr).negate h
  | isValid e ih =>
    rw [operand_isValid] at h
    obtain ⟨w, hw, h⟩ := bind_eq_ok.1 h
    cases h
    exact (ih hw hq hr).validity
  | member e set ih =>
    simp only [isQuiet, Bool.and_eq_true] at hq
    simp only [operand] at h
    split at h
    · rename_i hset
      cases h
      exact .of_boolean rfl fun i _ => ⟨_, rfl, by simp [value?, hset, ofScalar_ofBool]⟩
    · rename_i hset
      obtain ⟨w, hw, h⟩ := bind_eq_ok.1 h
      exact memberOf_denotes h (ih hw hq.1 hr) hset hq.2
  | cast e t ih =>
    simp only [recodes, Bool.or_eq_false_iff] at hr
    obtain ⟨w, hw, h⟩ := bind_eq_ok.1 (operand_cast b e t ▸ h)
    exact (ih hw hq hr.1).castTo (fun he => by simpa [he] using hr.2) h

end Expr

end TableScan
