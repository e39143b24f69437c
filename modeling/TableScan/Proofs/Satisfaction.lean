import TableScan.Proofs.Planning

namespace TableScan

open Value (ofScalar)

def Value.Is (x : Value) (v : Scalar) : Prop :=
  if v.isNull then x = .null else Value.compare? .eq x (ofScalar v) = some (some true)

namespace Expr

variable {p : Expr} {n : String}

def Binds (p : Expr) : Prop := ∀ c ∈ p.conjuncts, c = true_ ∨ (c.binding?).isSome

theorem Binds.facts (h : p.Binds) (n : String) : (Facts.ofGuarantee p n).bounds = [] ∧
    (Facts.ofGuarantee p n).valid = (Facts.ofGuarantee p n).value.map fun v => !v.isNull := by
  refine Facts.ofGuarantee_induction
    (P := fun g => g.bounds = [] ∧ g.valid = g.value.map fun v => !v.isNull) ⟨rfl, rfl⟩ ?_
  rintro c hc g ⟨hb, hv⟩
  have equation (v : Scalar) : (g.addComparison .eq v).bounds = [] ∧
      (g.addComparison .eq v).valid = (g.addComparison .eq v).value.map fun v => !v.isNull := by
    unfold Facts.addComparison
    split
    · exact ⟨hb, hv⟩
    · refine ⟨hb, ?_⟩
      cases hw : g.value <;> simp_all
  rcases h c hc with rfl | hbind
  · exact ⟨hb, hv⟩
  · unfold binding? at hbind
    split at hbind
    · rename_i f v
      by_cases hf : f = n
      · simpa only [Facts.add, hf, ↓reduceIte] using equation v
      · simpa only [Facts.add, hf, ↓reduceIte] using ⟨hb, hv⟩
    · rename_i v f
      by_cases hf : f = n
      · simpa only [Facts.add, hf, ↓reduceIte, Comparison.flip] using equation v
      · simpa only [Facts.add, hf, ↓reduceIte] using ⟨hb, hv⟩
    · rename_i f
      by_cases hf : f = n
      · simp only [Facts.add, hf, ↓reduceIte]
        refine ⟨hb, ?_⟩
        cases hw : g.value with
        | none => simp [hv, hw]; rfl
        | some w => simp [hv, hw]
      · simpa only [Facts.add, hf, ↓reduceIte] using ⟨hb, hv⟩
    · cases hbind

theorem Binds.holds (h : p.Binds) {x : Value}
    (hx : ∀ v, (Facts.ofGuarantee p n).value = some v → x.Is v) :
    (Facts.ofGuarantee p n).Holds x := by
  obtain ⟨hb, hv⟩ := h.facts n
  have none_of {b : Bound} (hmem : b ∈ (Facts.ofGuarantee p n).bounds) : False := by
    rw [hb] at hmem
    cases hmem
  refine ⟨hx, fun b hb => ?_, fun b hb => ?_, fun b hb => ?_, fun v hv => ?_⟩
  · rw [hv] at hb
    obtain ⟨v, hv, rfl⟩ := Option.map_eq_some_iff.1 hb
    have his := hx v hv
    unfold Value.Is at his
    split at his
    · rename_i hn
      rw [his, hn]
      rfl
    · rename_i hn
      rw [(Facts.Holds.isNull_of_compare? his).1]
      simpa using hn
  · exact (none_of (Facts.mem_bounds.2 (.inl hb))).elim
  · exact (none_of (Facts.mem_bounds.2 (.inr (.inl hb)))).elim
  · exact (none_of (Facts.mem_bounds.2 (.inr (.inr ⟨hv, rfl⟩)) : (⟨v, false⟩ : Bound) ∈ _)).elim

theorem Binds.value_ne_none (h : p.Binds) (hn : Facts.ofGuarantee p n ≠ Facts.none_) :
    (Facts.ofGuarantee p n).value ≠ none := by
  obtain ⟨hb, hv⟩ := h.facts n
  generalize Facts.ofGuarantee p n = g at hb hv hn
  obtain ⟨value, valid, lower, upper, excluded⟩ := g
  rintro rfl
  simp_all [Facts.bounds, Facts.none_]

end Expr

namespace Fragment

/-- Whether a fragment gives its rows, and not their file, the value that an expression fixes a
field to. -/
def Gives (fr : Fragment) (s : Schema) (n : String) (v : Scalar) : Prop :=
  ∀ f, s.field? n = some f →
    (fr.physical.field? n = none ∨ (fr.partition.boundTo? n).isSome) ∧
      ∀ x, fr.cell f none = some x → x.1 = f.type → x.value.Is v

/-- Whether a fragment gives its rows what the expressions on the way to it fix. -/
structure Honours (fr : Fragment) (s : Schema) (e : Expr) (ps : List Expr) : Prop where
  binds : ∀ p ∈ ps, p.Binds
  quiet : ∀ p ∈ ps, p.isQuiet
  gives : ∀ p ∈ ps, ∀ n ∈ e.fields, ∀ v, (Facts.ofGuarantee p n).value = some v → fr.Gives s n v
  carried : Carried s e ps

namespace Honours

variable {fr : Fragment} {s : Schema} {e p : Expr} {ps : List Expr} {q : Tuple} {n : String}
  {x : Value}

theorem cell_of_value (h : fr.Honours s e ps) (ht : (fr.seen s q).HasTypes s e.fields) (hp : p ∈ ps)
    (hn : n ∈ e.fields) (hx : (fr.seen s q).row n = some x) {v : Scalar}
    (hv : (Facts.ofGuarantee p n).value = some v) :
    ∃ f c, fr.cell f none = some c ∧ x = c.value ∧ x.Is v := by
  obtain ⟨c, hc, rfl⟩ := Option.map_eq_some_iff.1 hx
  obtain ⟨f, hf, hname, hcell⟩ := seen_eq_some hc
  obtain ⟨hgiven, his⟩ := h.gives p hp n hn v hv f hf
  have hnone : fr.cell f none = some c := by
    rcases hgiven with habsent | hbound
    · rw [habsent] at hcell
      exact hcell
    · rw [← fr.cell_of_bound (by rw [hname]; exact hbound), hcell]
  exact ⟨f, c, hnone, rfl, his c hnone (ht n hn f hf c hc)⟩

theorem obeys (h : fr.Honours s e ps) (ht : (fr.seen s q).HasTypes s e.fields)
    (hfr : fr.partition ∈ ps) (hp : p ∈ ps)
    (hq : (∃ a, Expr.IsRetyped s p a) → (fr.seen s q).row.IsQuiet) :
    ((fr.seen s q).row.only e.fields).Obeys s p where
  typed n t a hx := fr.seen_isTyped s q n t a (Row.of_only hx).2
  plain n x hx := Tuple.row_isPlain (Row.of_only hx).2
  holds n x hx := by
    obtain ⟨hn, hx⟩ := Row.of_only hx
    refine (h.binds p hp).holds fun v hv => ?_
    obtain ⟨_, _, -, -, his⟩ := h.cell_of_value ht hp hn hx hv
    exact his
  quiet n x hx hne := by
    obtain ⟨hn, hx⟩ := Row.of_only hx
    obtain ⟨v, hv⟩ := Option.ne_none_iff_exists'.1 ((h.binds p hp).value_ne_none hne)
    obtain ⟨f, c, hc, rfl, -⟩ := h.cell_of_value ht hp hn hx hv
    exact cell_isQuiet hc (h.quiet _ hfr) nofun
  retyped hr n x hx := hq hr n x (Row.of_only hx).2

theorem truth? {qs : List Expr} {u : Expr} {t : Option Bool} (h : fr.Honours s e (ps ++ qs))
    (ht : (fr.seen s q).HasTypes s e.fields) (hfr : fr.partition ∈ ps ++ qs)
    (hq : ∀ p ∈ ps, (∃ a, Expr.IsRetyped s p a) → (fr.seen s q).row.IsQuiet) (hn : Narrowed e ps u)
    (he : e.isQuiet) (htruth : e.truth? (fr.seen s q).row = some t) :
    u.truth? (fr.seen s q).row = some t := by
  rw [← Expr.truth?_only fun n hn' => (hn.fields_subset hn').1]
  refine hn.truth? h.carried.of_append he (fun p hp => ?_)
    ((Expr.truth?_only fun n hn => hn).trans htruth)
  have hmem : p ∈ ps ++ qs := List.mem_append_left qs hp
  exact ⟨h.quiet p hmem, h.obeys ht hfr hmem (hq p hp)⟩

end Honours

end Fragment

namespace Scan

variable {d : Dataset} {r : ScanRequest} {s : Scan} {files : FileAccess} {bs : List Batch}
  {b : Batch} {m : List (Option Bool)}

theorem recodes_of_tuple {fr : Fragment} {u : Schema} {p : Tuple} {e : Expr} {i : Nat}
    (h : b.tuple i = fr.seen u p) (hi : i < b.rows) (he : e.recodes u = false) :
    e.recodes b.schema = false := by
  refine Expr.recodes_mono (fun n f hf hd => ?_) he
  obtain ⟨c, hc, ht⟩ := Batch.field?_column hf
  obtain ⟨x, hx⟩ := c.cell?_isSome (i := i) (by rw [b.length_of_column? hc]; exact hi)
  have htuple : b.tuple i n = some x := by rw [Batch.tuple, hc, Option.bind_some, hx]
  rw [h] at htuple
  refine Fragment.seen_isDictionary htuple ?_
  obtain ⟨_, -, rfl⟩ := Option.map_eq_some_iff.1 hx
  rw [ht] at hd
  exact hd

/-- Every row that a scan of all columns yields satisfies its filter. -/
theorem mask_toBatches (h : build d r = .ok s) (hall : r.columns = none)
    (hbs : (s.toBatches files).result = .ok bs) (hf : d.IsUniform files)
    (hplaces : ∀ fr ps, (fr, ps) ∈ d.places → fr.Honours d.schema s.filter ps)
    (hq : r.filter.isQuiet) (hr : r.filter.recodes d.schema = false) (hb : b ∈ bs)
    (hretyped : ∀ fr ps, (fr, ps) ∈ d.places → ∀ p ∈ ps, ∀ a, Expr.IsRetyped d.schema p a →
      b.isQuiet)
    (hm : r.filter.mask b = .ok m) : ∀ i < b.rows, m[i]? = some (some true) := by
  intro i hi
  obtain ⟨rfl, hfold, -⟩ := build_eq_ok h
  have hsq := Expr.isQuiet_fold hfold hq
  obtain ⟨fr, ps, u, p, hplace, hn, hsat, htuple, hsome⟩ := mem_toBatches hbs hf hsq
    (Expr.recodes_fold hfold hr) (fun fr ps hplace => (hplaces fr ps hplace).quiet) hb hi
  have hcells (n : String) (f : Field) (hn : s.dataset.schema.field? n = some f) :
      ∃ c, fr.seen s.dataset.schema p n = some c ∧ c.1 = f.type :=
    hsome n f hn (.inr (mem_projected h hall hn))
  have hseen : b.tuple i = fr.seen s.dataset.schema p := by
    rw [htuple, fr.project_seen (field?_projected h hall) fun n f hn =>
      (hcells n f hn).imp fun c hc => hc.1]
  have htypes : (fr.seen s.dataset.schema p).HasTypes s.dataset.schema s.filter.fields := by
    intro n _ f hf c hc
    obtain ⟨c', hc', ht⟩ := hcells n f hf
    cases hc.symm.trans hc'
    exact ht
  obtain ⟨t, ht, htruth⟩ := Expr.mask_truth hm hq (recodes_of_tuple hseen hi hr) hi
  have hrow : b.row i = (fr.seen s.dataset.schema p).row := by rw [← Batch.row_tuple, hseen]
  rw [hrow] at htruth
  have hhonours : fr.Honours s.dataset.schema s.filter (ps ++ []) := by
    rw [List.append_nil]
    exact hplaces fr ps hplace
  have hleft := hhonours.truth? htypes
    (by rw [List.append_nil]; exact (Dataset.mem_places hplace).2)
    (fun p hp ⟨a, ha⟩ => by
      rw [← hrow]
      exact b.row_isQuiet (hretyped fr ps hplace p hp a ha) i)
    hn hsq (Expr.truth?_fold hfold hq htruth)
  simp only [Tuple.satisfies, hleft, decide_eq_true_eq, Option.some.injEq] at hsat
  rw [ht, hsat]

section Years

def thisYear : Expr :=
  .compare .eq (.field "year") (.lit (.ofFixed (t := .int32) ⟨2024, by decide, by decide⟩))

def yearly (above own : Expr) : Dataset :=
  let file : Schema := [⟨"x", .int .int64, true, .empty⟩]
  let image : FileImage := .ipc ⟨file, [Expr.wholes Expr.seven]⟩
  ⟨[.leaf .memory file above [⟨.buffer "a" image, .ipc, own, file⟩]],
    file ++ [⟨"year", .int .int32, true, .empty⟩]⟩

def ofThisYear : ScanRequest := ⟨thisYear, none, .default_⟩

theorem binds_thisYear : thisYear.Binds := by
  intro c hc
  rw [List.mem_singleton.1 hc]
  exact .inr rfl

theorem value_thisYear {n : String} {v : Scalar}
    (h : (Facts.ofGuarantee thisYear n).value = some v) :
    n = "year" ∧ v = .ofFixed (t := .int32) ⟨2024, by decide, by decide⟩ := by
  obtain ⟨c, hc, ht⟩ := Facts.tells_value h
  obtain rfl : c = thisYear := List.mem_singleton.1 hc
  cases ht
  exact ⟨rfl, rfl⟩

theorem types_thisYear : thisYear.Types (yearly thisYear thisYear).schema := by
  refine fun n => ⟨(binds_thisYear.facts n).1, fun v hv _ => ?_⟩
  obtain ⟨rfl, rfl⟩ := value_thisYear hv
  rfl

theorem mask_toBatches_yearly : ∃ s b m, build (yearly thisYear thisYear) ofThisYear = .ok s ∧
    (s.toBatches FileAccess.none_).result = .ok [b] ∧ b.rows = 1 ∧ thisYear.mask b = .ok m ∧
      m[0]? = some (some true) := by
  obtain ⟨s, b, m, hs, hbs, hrows, hm⟩ : ∃ s b m,
      build (yearly thisYear thisYear) ofThisYear = .ok s ∧
      (s.toBatches FileAccess.none_).result = .ok [b] ∧ b.rows = 1 ∧ thisYear.mask b = .ok m :=
    ⟨_, _, _, rfl, rfl, rfl, rfl⟩
  refine ⟨s, b, m, hs, hbs, hrows, hm, ?_⟩
  have way (fr : Fragment) (ps : List Expr) (h : (fr, ps) ∈ (yearly thisYear thisYear).places)
      (p : Expr) (hp : p ∈ ps) : p = thisYear := by
    cases List.mem_singleton.1 h
    simpa using hp
  have honours (fr : Fragment) (ps : List Expr) (h : (fr, ps) ∈ (yearly thisYear thisYear).places) :
      fr.Honours (yearly thisYear thisYear).schema s.filter ps := by
    refine ⟨fun p hp => way fr ps h p hp ▸ binds_thisYear, fun p hp => way fr ps h p hp ▸ rfl, ?_,
      .of_types (fun p hp => way fr ps h p hp ▸ types_thisYear) _⟩
    intro p hp n _ v hv f hf
    rw [way fr ps h p hp] at hv
    obtain ⟨rfl, rfl⟩ := value_thisYear hv
    cases List.mem_singleton.1 h
    cases hf
    exact ⟨.inl rfl, fun x hx _ => by cases hx; rfl⟩
  refine mask_toBatches hs rfl hbs ?_ honours rfl rfl List.mem_cons_self ?_ hm 0 (by omega)
  · intro fr hfr file hfile
    cases List.mem_singleton.1 hfr
    cases hfile
    intro b hb
    cases List.mem_singleton.1 hb
    rfl
  · intro fr ps h p hp a ha
    rw [way fr ps h p hp] at ha
    exact absurd ha (types_thisYear.not_isRetyped a)

/-- A year of the source alone is taken for granted of rows that do not have it. -/
theorem mask_toBatches_unfilled : ∃ s b, build (yearly thisYear .true_) ofThisYear = .ok s ∧
    (s.toBatches FileAccess.none_).result = .ok [b] ∧ thisYear.mask b = .ok [none] :=
  ⟨_, _, rfl, rfl, rfl⟩

end Years

end Scan

end TableScan
