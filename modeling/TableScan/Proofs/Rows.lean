import TableScan.Proofs.Simplification

namespace TableScan

open Value (ofCell ofScalar ofTruth)

def Column.isQuiet (c : Column) : Bool := c.cells.all fun x => (ofCell c.type x).isQuiet

def Batch.isQuiet (b : Batch) : Bool := b.columns.all (·.column.isQuiet)

namespace Row

def IsQuiet (ρ : Row) : Prop := ∀ n x, ρ n = some x → x.isPlain ∧ x.isQuiet

def IsTyped (ρ : Row) (τ : String → DataType) : Prop :=
  ∀ n t a, ρ n = some (.of t a) → t = (τ n).plain

end Row

def Schema.typeOf (s : Schema) (name : String) : DataType :=
  ((s.field? name).map (·.type)).getD .null

namespace Schema

variable {s : Schema} {n : String} {f : Field}

theorem name_of_field? (h : s.field? n = some f) : f.name = n := by simpa using List.find?_some h

theorem mem_names_of_field? (h : s.field? n = some f) : n ∈ s.names :=
  List.mem_map.2 ⟨f, List.mem_of_find?_eq_some h, name_of_field? h⟩

theorem typeOf_of_field? (h : s.field? n = some f) : s.typeOf n = f.type := by
  rw [typeOf, h, Option.map_some, Option.getD_some]

end Schema

theorem Batch.row_isQuiet {b : Batch} (h : b.isQuiet) (i : Nat) : (b.row i).IsQuiet := by
  intro n x hx
  obtain ⟨c, hc, hv⟩ := Option.bind_eq_some_iff.1 hx
  obtain ⟨s, hs, rfl⟩ := Option.map_eq_some_iff.1 hc
  obtain ⟨cell, hcell, rfl⟩ := Option.map_eq_some_iff.1 hv
  have hcol := List.all_eq_true.1 h s (List.mem_of_find?_eq_some hs)
  exact ⟨Value.isPlain_ofCell _ _, List.all_eq_true.1 hcol cell (List.mem_of_getElem? hcell)⟩

theorem Batch.row_isTyped (b : Batch) (i : Nat) : (b.row i).IsTyped b.schema.typeOf := by
  intro n t a hx
  obtain ⟨c, hc, hv⟩ := Option.bind_eq_some_iff.1 hx
  obtain ⟨f, hf, ht⟩ := Expr.field?_schema hc
  obtain ⟨cell, -, hcell⟩ := Option.map_eq_some_iff.1 hv
  rw [Schema.typeOf_of_field? hf, ht]
  cases cell with
  | none => cases hcell
  | some y =>
    obtain ⟨z, hz⟩ := Value.ofSome_plain c.type y
    rw [Value.ofCell_some, hz] at hcell
    cases hcell
    rfl

namespace Expr

def kind (τ : String → DataType) : Expr → DataType
  | field n => τ n
  | lit v => v.dataType
  | cast _ t => t
  | _ => .boolean

theorem type_ofTruth {t : DataType} {a : t.Carrier} {b : Option Bool}
    (h : ofTruth b = Value.of t a) : t = .boolean := by
  cases b <;> cases h
  rfl

theorem type_ofCell {t p : DataType} {a : t.Carrier} {c : Option p.Carrier}
    (h : ofCell p c = Value.of t a) : t = p.plain := by
  cases c with
  | none => cases h
  | some y =>
    obtain ⟨z, hz⟩ := Value.ofSome_plain p y
    rw [Value.ofCell_some, hz] at h
    cases h
    rfl

theorem value?_isTyped {ρ : Row} {τ : String → DataType} (h : ρ.IsTyped τ) {e : Expr} {t : DataType}
    {a : t.Carrier} (hx : e.value? ρ = some (.of t a)) : t = (e.kind τ).plain := by
  cases e with
  | field n => exact h n t a hx
  | lit v => exact type_ofCell (Option.some.inj hx)
  | compare op x y =>
    obtain ⟨_, _, _, _, _, _, hb⟩ := value?_compare hx
    exact type_ofTruth hb.symm
  | and x y | or x y =>
    obtain ⟨_, _, hb⟩ := ofTruth_map hx
    exact type_ofTruth hb.symm
  | not e =>
    obtain ⟨_, _, hb⟩ := value?_not hx
    exact type_ofTruth hb.symm
  | isValid e =>
    obtain ⟨_, _, hb⟩ := value?_isValid hx
    exact type_ofTruth hb.symm
  | member e set =>
    by_cases hset : set = []
    · simp only [value?, hset, ↓reduceIte, Option.some.injEq] at hx
      exact type_ofTruth hx
    · obtain ⟨_, _, _, _, hb⟩ := value?_member hx hset
      exact type_ofTruth hb.symm
  | cast e p =>
    obtain ⟨y, -, hc⟩ := Option.bind_eq_some_iff.1 hx
    obtain ⟨c, -, hc⟩ := Option.map_eq_some_iff.1 hc
    exact type_ofCell hc

theorem isQuiet_ofTruth (b : Option Bool) : (ofTruth b).isPlain ∧ (ofTruth b).isQuiet := by
  cases b <;> exact ⟨rfl, rfl⟩

theorem value?_isQuiet {ρ : Row} (h : ρ.IsQuiet) {e : Expr} (hq : e.isQuiet) {x : Value}
    (hx : e.value? ρ = some x) : x.isPlain ∧ x.isQuiet := by
  induction e generalizing x with
  | field n => exact h n x hx
  | lit v =>
    cases hx
    exact ⟨Value.isPlain_ofCell _ _, hq⟩
  | compare op a b =>
    obtain ⟨_, _, _, _, _, _, rfl⟩ := value?_compare hx
    exact isQuiet_ofTruth _
  | and a b | or a b =>
    obtain ⟨_, _, rfl⟩ := ofTruth_map hx
    exact isQuiet_ofTruth _
  | not e =>
    obtain ⟨_, _, rfl⟩ := value?_not hx
    exact isQuiet_ofTruth _
  | isValid e =>
    obtain ⟨_, _, rfl⟩ := value?_isValid hx
    exact isQuiet_ofTruth _
  | member e set =>
    by_cases hset : set = []
    · simp only [value?, hset, ↓reduceIte, Option.some.injEq] at hx
      rw [← hx]
      exact isQuiet_ofTruth _
    · obtain ⟨_, _, _, _, rfl⟩ := value?_member hx hset
      exact isQuiet_ofTruth _
  | cast e t ih =>
    obtain ⟨y, hy, hc⟩ := Option.bind_eq_some_iff.1 hx
    have hyq := ih hq hy
    refine ⟨?_, Value.isQuiet_cast? hc hyq.1 hyq.2⟩
    obtain ⟨c, -, rfl⟩ := Option.map_eq_some_iff.1 hc
    exact Value.isPlain_ofCell _ _

theorem conjuncts_foldl (e : Expr) (es : List Expr) :
    (es.foldl and e).conjuncts = e.conjuncts ++ es.flatMap conjuncts := by
  induction es generalizing e with
  | nil => simp
  | cons e' es ih => rw [List.foldl_cons, ih, conjuncts, List.append_assoc, List.flatMap_cons]

theorem conjuncts_all (es : List Expr) :
    (all es).conjuncts = if es = [] then [true_] else es.flatMap conjuncts := by
  cases es with
  | nil => rfl
  | cons e es =>
    rw [if_neg nofun, List.flatMap_cons]
    exact conjuncts_foldl e es

theorem truths_scalar {rows : Nat} {s : Scalar} {t : Option Bool} (h : s.truth = .ok t) :
    (Operand.scalar s).truths rows = .ok (List.replicate rows t) := by
  unfold Scalar.truth at h
  split at h
  · cases h
    exact congrArg Except.ok (List.map_replicate)
  · cases h
    rfl
  · cases h

theorem truths_combine {f : Option Bool → Option Bool → Option Bool} {rows : Nat} {v w u : Operand}
    {ts : List (Option Bool)} (h : Operand.combine f rows v w = .ok u)
    (hu : u.truths rows = .ok ts) :
    ∃ xs ys, v.truths rows = .ok xs ∧ w.truths rows = .ok ys ∧ ts = List.zipWith f xs ys := by
  cases Operand.combined h with
  | single hs ht =>
    cases hu
    exact ⟨_, _, truths_scalar hs, truths_scalar ht, (List.zipWith_replicate' ..).symm⟩
  | byRow _ hxs hys =>
    cases hu
    exact ⟨_, _, hxs, hys, rfl⟩

theorem mask_conjuncts {b : Batch} {g : Expr} {m : List (Option Bool)} {i : Nat}
    (h : g.mask b = .ok m) (hi : m[i]? = some (some true)) :
    ∀ c ∈ g.conjuncts, ∃ mc, c.mask b = .ok mc ∧ mc[i]? = some (some true) := by
  induction g generalizing m with
  | and x y ihx ihy =>
    obtain ⟨u, hu, h⟩ := bind_eq_ok.1 h
    obtain ⟨l, hl, hu⟩ := bind_eq_ok.1 hu
    obtain ⟨r, hr, hu⟩ := bind_eq_ok.1 hu
    obtain ⟨xs, ys, hxs, hys, rfl⟩ := truths_combine hu h
    obtain ⟨s, t, hs, ht, hst⟩ := List.getElem?_zipWith_eq_some.1 hi
    have both : s = some true ∧ t = some true := by
      rcases s with _ | (_ | _) <;> rcases t with _ | (_ | _) <;> simp [kleeneAnd] at hst ⊢
    intro c hc
    rcases List.mem_append.1 hc with hc | hc
    · exact ihx (bind_eq_ok.2 ⟨l, hl, hxs⟩) (both.1 ▸ hs) c hc
    · exact ihy (bind_eq_ok.2 ⟨r, hr, hys⟩) (both.2 ▸ ht) c hc
  | _ =>
    intro c hc
    cases List.mem_singleton.1 hc
    exact ⟨m, h, hi⟩

theorem mask_truth {b : Batch} {e : Expr} {m : List (Option Bool)} (h : e.mask b = .ok m)
    (hq : e.isQuiet) (hr : e.recodes b.schema = false) {i : Nat} (hi : i < b.rows) :
    ∃ t, m[i]? = some t ∧ e.truth? (b.row i) = some t := by
  obtain ⟨v, hv, h⟩ := bind_eq_ok.1 h
  obtain ⟨x, hx, he⟩ := (operand_denotes hv hq hr).value i hi
  obtain ⟨t, ht, hxt⟩ := Operand.truths_getElem? h hi hx
  exact ⟨t, ht, by rw [truth?, he]; exact hxt⟩

theorem isQuiet_conjuncts {g : Expr} (h : g.isQuiet) : ∀ c ∈ g.conjuncts, c.isQuiet := by
  induction g with
  | and x y ihx ihy =>
    intro c hc
    rw [isQuiet, Bool.and_eq_true] at h
    rcases List.mem_append.1 hc with hc | hc
    · exact ihx h.1 c hc
    · exact ihy h.2 c hc
  | _ =>
    intro c hc
    cases List.mem_singleton.1 hc
    exact h

theorem isQuiet_of_conjuncts {e : Expr} (h : ∀ c ∈ e.conjuncts, c.isQuiet) : e.isQuiet := by
  induction e with
  | and a b iha ihb =>
    rw [isQuiet, Bool.and_eq_true]
    exact ⟨iha fun c hc => h c (List.mem_append_left _ hc),
      ihb fun c hc => h c (List.mem_append_right _ hc)⟩
  | _ => exact h _ (List.mem_singleton.2 rfl)

end Expr

end TableScan
