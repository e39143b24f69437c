import TableScan.Proofs.Filtering
import TableScan.Proofs.Typing

namespace TableScan

namespace Source

/-- The expressions under which a filter is simplified below a source, and those under which it was
before. -/
inductive OnWay : Source → List Expr → Expr → Prop
  | leaf {kind : SourceKind} {σ : Schema} {p : Expr} {fragments : List Fragment} :
      OnWay (leaf kind σ p fragments) [] p
  | fragment {kind : SourceKind} {σ : Schema} {p : Expr} {fragments : List Fragment}
      {fr : Fragment} :
      fr ∈ fragments → OnWay (.leaf kind σ p fragments) [p] fr.partition
  | tree {σ : Schema} {p : Expr} {sources : List Source} : OnWay (tree σ p sources) [] p
  | child {σ : Schema} {p q : Expr} {sources : List Source} {s : Source} {ps : List Expr} :
      s ∈ sources →
      OnWay s ps q → OnWay (.tree σ p sources) (p :: ps) q

theorem OnWay.before {s : Source} {ps : List Expr} {p q : Expr} (h : s.OnWay ps p) (hq : q ∈ ps) :
    ∃ qs, s.OnWay qs q := by
  induction h with
  | leaf | tree => cases hq
  | fragment =>
    cases List.mem_singleton.1 hq
    exact ⟨[], .leaf⟩
  | child hs _ ih =>
    rcases List.mem_cons.1 hq with rfl | hq
    · exact ⟨[], .tree⟩
    · obtain ⟨qs, hqs⟩ := ih hq
      exact ⟨_, .child hs hqs⟩

mutual

theorem candidates_eq_error (s : Source) {filter : Expr} {f : Failure}
    (h : s.candidates filter = .error f) :
    ∃ ps p u, s.OnWay ps p ∧ Narrowed filter ps u ∧ u.simplify p = .error f := by
  match s with
  | .leaf kind σ p fragments =>
    rcases bind_eq_error.1 h with h | ⟨e, he, h⟩
    · exact ⟨[], p, filter, .leaf, .nil filter, h⟩
    split at h
    · obtain ⟨fr, hfr, h⟩ := filterMapM_eq_error h
      rcases bind_eq_error.1 h with h | ⟨u, -, h⟩
      · exact ⟨[p], fr.partition, e, .fragment hfr, .cons he (.nil e), h⟩
      · cases h
    · cases h
  | .tree σ p sources =>
    rcases bind_eq_error.1 h with h | ⟨e, he, h⟩
    · exact ⟨[], p, filter, .tree, .nil filter, h⟩
    split at h
    · obtain ⟨child, hchild, ps, q, u, hq, hu, h⟩ := candidatesOf_eq_error sources h
      exact ⟨p :: ps, q, u, .child hchild hq, .cons he hu, h⟩
    · cases h

theorem candidatesOf_eq_error (sources : List Source) {filter : Expr} {f : Failure}
    (h : candidates.candidatesOf filter sources = .error f) :
    ∃ s ∈ sources, ∃ ps p u, s.OnWay ps p ∧ Narrowed filter ps u ∧ u.simplify p = .error f := by
  match sources with
  | [] => cases h
  | s :: rest =>
    rcases bind_eq_error.1 h with h | ⟨first, -, h⟩
    · exact ⟨s, List.mem_cons_self, candidates_eq_error s h⟩
    rcases bind_eq_error.1 h with h | ⟨others, -, h⟩
    · obtain ⟨s', hs', h⟩ := candidatesOf_eq_error rest h
      exact ⟨s', List.mem_cons_of_mem s hs', h⟩
    · cases h

end

end Source

/-- The expressions under which a filter is simplified for a dataset, and those under which it was
before. -/
def Dataset.OnWay (d : Dataset) (ps : List Expr) (p : Expr) : Prop := ∃ s ∈ d.sources, s.OnWay ps p

namespace Scan

variable {s : Scan} {d : Dataset} {r : ScanRequest} {f : Failure}

theorem plan_eq_error (h : s.plan = .error f) :
    ∃ ps p u, s.dataset.OnWay ps p ∧ Narrowed s.filter ps u ∧ u.simplify p = .error f := by
  rcases bind_eq_error.1 h with h | ⟨tasks, -, h⟩
  · obtain ⟨source, hsource, h⟩ := mapM_eq_error h
    rcases bind_eq_error.1 h with h | ⟨candidates, -, h⟩
    · obtain ⟨ps, p, u, hp, hu, h⟩ := source.candidates_eq_error h
      exact ⟨ps, p, u, ⟨source, hsource, hp⟩, hu, h⟩
    · cases h
  · cases h

end Scan

namespace Expr

variable {σ : Schema} {e u p : Expr} {ps : List Expr} {t : DataType}

abbrev Typed (σ : Schema) (e : Expr) (t : DataType) : Prop := HasType (fun _ _ => True) σ e t

theorem typed_of_typeIn (h : e.typeIn σ = .ok t) : Typed σ e t :=
  (typeIn_eq_ok.1 h).mono fun _ _ _ _ => trivial

theorem Typed.simplified {facts : String → Facts} (h : Typed σ e t) (hf : Admits σ facts)
    (hu : Simplified facts e u) : ∃ t', Typed σ u t' := by
  obtain ⟨t', ht', -⟩ := hu.hasType h hf fun _ _ _ _ _ => trivial
  exact ⟨t', ht'⟩

theorem Typed.narrowed (h : Typed σ e t) (hu : Narrowed e ps u)
    (hps : ∀ p ∈ ps, Admits σ (Facts.ofGuarantee p)) : ∃ t', Typed σ u t' := by
  induction hu generalizing t with
  | nil => exact ⟨t, h⟩
  | cons hs _ ih =>
    rw [List.forall_mem_cons] at hps
    obtain ⟨t', ht'⟩ := h.simplified hps.1 (simplified_of_ok hs)
    exact ih ht' hps.2

end Expr

namespace Facts

variable {g : Facts} {n : String} {c p : Expr} {v : Scalar}

theorem null_of_add (h : (add n g c).value = some v) :
    g.value = some v ∨ v = .null ∨ v.isNull = false := by
  have comparison {op : Comparison} {w : Scalar} (h : (g.addComparison op w).value = some v) :
      g.value = some v ∨ v = .null ∨ v.isNull = false := by
    rcases value_addComparison h with h | ⟨rfl, rfl⟩
    · exact .inl h
    · cases hn : w.isNull with
      | false => exact .inr (.inr rfl)
      | true =>
        rw [addComparison, if_pos hn] at h
        exact .inl h
  unfold add at h
  split at h
  · split at h
    · exact comparison h
    · exact .inl h
  · split at h
    · exact comparison h
    · exact .inl h
  · split at h <;> exact .inl h
  · split at h
    · exact (Holds.some_of_orElse h).imp_right fun h => .inl h.symm
    · exact .inl h
  · exact .inl h

theorem null_of_value (h : (ofGuarantee p n).value = some v) : v = .null ∨ v.isNull = false := by
  revert h
  refine ofGuarantee_induction (P := fun g => g.value = some v → _)
    (fun h => by cases h) fun c _ g hg h => ?_
  rcases null_of_add h with h | h
  · exact hg h
  · exact h

end Facts

theorem Expr.Types.admits {p : Expr} {σ : Schema} (h : p.Types σ) :
    Expr.Admits σ (Facts.ofGuarantee p) := by
  intro n f v hf hv
  rcases Facts.null_of_value hv with rfl | hn
  · exact .inr (.inr rfl)
  · refine .inr (.inl (((h n).2 v hv hn).trans ?_))
    rw [Schema.typeOf_of_field? hf]

namespace Dataset

variable {d : Dataset} {files : FileAccess}

theorem admits_discover {root : String} {format : Format} {options : DiscoveryOptions}
    (h : (discover files root format options).result = .ok d) (hs : options.schema = none)
    (hp : options.partitioning.IsUsual) {ps : List Expr} {p : Expr} (hway : d.OnWay ps p) :
    Expr.Admits d.schema (Facts.ofGuarantee p) := by
  obtain ⟨found, hfound, rfl⟩ := discover_eq_ok h
  have hfits := Discovery.inspect_eq_ok hs hp hfound
  obtain ⟨source, hsource, hway⟩ := hway
  cases List.mem_singleton.1 hsource
  cases hway with
  | leaf => exact Expr.Fixes.true_.types.admits
  | fragment hfr => exact (hfits _ hfr).fixes.types.admits

end Dataset

namespace Scan

variable {d : Dataset} {r : ScanRequest} {s : Scan}

/--
A scan that was built has a plan, unless a cast fails on a value that an expression on the way to a
fragment gives to a field of its type.
-/
theorem plan_build (h : build d r = .ok s)
    (hd : ∀ ps p, d.OnWay ps p → Expr.Admits d.schema (Facts.ofGuarantee p)) :
    (∃ tasks, s.plan = .ok tasks) ∨ ∃ ps p u f, d.OnWay ps p ∧ Narrowed s.filter ps u ∧
      Expr.CastFails (Facts.ofGuarantee p) u f ∧ s.plan = .error f := by
  cases hplan : s.plan with
  | ok tasks => exact .inl ⟨tasks, rfl⟩
  | error f =>
    right
    obtain ⟨t, ht, -⟩ := typeIn_build h
    obtain ⟨rfl, hfold, -⟩ := build_eq_ok h
    obtain ⟨ps, p, u, hway, hu, hfail⟩ := plan_eq_error hplan
    have hnone : Expr.Admits s.dataset.schema fun _ => Facts.none_ := fun n g v _ hv => by cases hv
    obtain ⟨t', ht'⟩ := (Expr.typed_of_typeIn ht).simplified hnone (Expr.simplified_fold hfold)
    -- every simplification on the way keeps some type, so that only a cast is left to fail in the
    -- last one
    obtain ⟨t'', htyped⟩ := ht'.narrowed hu fun q hq => by
      obtain ⟨qs, hqs⟩ : ∃ qs, s.dataset.OnWay qs q := by
        obtain ⟨source, hsource, hway⟩ := hway
        exact (hway.before hq).imp fun qs hqs => ⟨source, hsource, hqs⟩
      exact hd qs q hqs
    exact ⟨ps, p, u, f, hway, hu,
      htyped.castFails (hd ps p hway) (fun _ _ _ _ _ => trivial) hfail, rfl⟩

def castKey (t : DataType) (v : Scalar) : ScanRequest :=
  ⟨.compare .eq (.cast (.field "k") t) (.lit v), none, .default_⟩

theorem plan_castKey : ∃ d s tasks,
    (Dataset.discover (keyed ["k=1", "k=2"]) "" .ipc (underKey (.int .int32))).result = .ok d ∧
    build d (castKey .utf8 (.ofText "1")) = .ok s ∧ s.plan = .ok tasks := by
  have hd := discover_keyed oneAndTwo (.int .int32) rfl (by decide) (List.cons_ne_nil _ _)
  have hs : ∃ s, build (ofKeys oneAndTwo (.int .int32)) (castKey .utf8 (.ofText "1")) = .ok s ∧
      s.plan.toOption.isSome := ⟨_, rfl, rfl⟩
  obtain ⟨s, hs, hsome⟩ := hs
  rcases plan_build hs fun ps p => Dataset.admits_discover hd rfl trivial with ⟨tasks, h⟩ |
    ⟨_, _, _, f, -, -, -, h⟩
  · exact ⟨_, s, tasks, hd, hs, h⟩
  · rw [h] at hsome
    cases hsome

/-- A key that is a text but not one of an integer is cast to an integer. -/
theorem plan_castKey_unreadable : ∃ d s,
    (Dataset.discover (keyed ["k=abc"]) "" .ipc (underKey .utf8)).result = .ok d ∧
    build d (castKey (.int .int32) (.ofFixed (t := .int32) ⟨1, by decide, by decide⟩)) = .ok s ∧
    s.plan =
      .error (TypeFault.cast (.ofText "abc") (.int .int32) (.unreadable "abc" (.int .int32))) := by
  have hd :=
    discover_keyed [("k=abc", .ofText "abc")] .utf8 rfl (by decide +kernel) (List.cons_ne_nil _ _)
  exact ⟨_, _, hd, rfl, rfl⟩

end Scan

end TableScan
