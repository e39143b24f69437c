import TableScan.Proofs.Planning
import TableScan.Proofs.Residuals

namespace TableScan

namespace Source

/-- Whether neither the source nor any source below it says anything of its rows. -/
inductive IsOpen : Source → Prop
  | leaf {kind : SourceKind} {schema : Schema} {fragments : List Fragment} :
      IsOpen (leaf kind schema .true_ fragments)
  | tree {schema : Schema} {sources : List Source} : (∀ s ∈ sources, IsOpen s) →
      IsOpen (tree schema .true_ sources)

variable {filter : Expr} {sources : List Source} {s : Source}

theorem candidates_leaf_of_settled (hf : filter.fold = .ok filter) (hs : filter.isSatisfiable)
    (kind : SourceKind) (schema : Schema) (frs : List Fragment) :
    (leaf kind schema .true_ frs).candidates filter = frs.filterMapM (candidate filter) := by
  change (do
    let filter ← filter.fold
    if filter.isSatisfiable then frs.filterMapM (candidate filter) else return []) = _
  rw [hf]
  exact if_pos hs

theorem candidatesOf_eq
    (h : ∀ s ∈ sources, s.candidates filter = s.fragments.filterMapM (candidate filter)) :
    candidates.candidatesOf filter sources =
      (fragments.fragmentsOf sources).filterMapM (candidate filter) := by
  induction sources with
  | nil => rfl
  | cons s rest ih =>
    obtain ⟨hs, hrest⟩ := List.forall_mem_cons.1 h
    rw [candidates.candidatesOf, fragments.fragmentsOf, filterMapM_append, hs, ih hrest]

/--
Nesting does not change what a filter leaves: the same fragments in the same order with the same
rest of the filter, or the same failure.
-/
theorem candidates_flat (h : s.IsOpen) (filter : Expr) (kind : SourceKind) (schema : Schema) :
    s.candidates filter = (leaf kind schema .true_ s.fragments).candidates filter := by
  induction h generalizing filter with
  | leaf => rfl
  | @tree treeSchema sources _ ih =>
    -- What reaches the children is folded, so that none of them stops before its fragments or fails
    -- there.
    have below {e : Expr} (he : filter.fold = .ok e) (hs : e.isSatisfiable) :
        candidates.candidatesOf e sources =
        (fragments.fragmentsOf sources).filterMapM (candidate e) := by
      refine candidatesOf_eq fun s hmem => ?_
      rw [ih s hmem e]
      exact candidates_leaf_of_settled (Expr.settled_of_simplifyWith he) hs kind schema s.fragments
    unfold Source.candidates
    cases he : filter.simplify .true_ with
    | error failure => rfl
    | ok e => exact ite_congr rfl (below he) fun _ => rfl

def ofKey (i : Fixed .int64) : Fragment :=
  ⟨.stored "", .ipc, .compare .eq (.field "k") (.lit (.ofFixed i)), []⟩

def nested : Source :=
  tree [] .true_ [leaf .memory [] .true_ [ofKey Expr.zero],
    tree [] .true_ [leaf .filesystem [] .true_ [ofKey Expr.seven, ofKey Expr.zero]]]

theorem candidates_flat_nested :
    let filter :=
  Expr.and (.compare .eq (.field "k") (.lit (.ofFixed Expr.seven))) (Expr.above Expr.zero)
    nested.IsOpen ∧
      nested.candidates filter = (leaf .filesystem [] .true_ nested.fragments).candidates filter ∧
      nested.candidates filter = .ok [(ofKey Expr.seven, Expr.above Expr.zero)] := by
  have isOpen : nested.IsOpen := by
    refine .tree ?_
    simp only [List.forall_mem_cons, List.not_mem_nil, false_imp_iff, implies_true, and_true]
    refine ⟨.leaf, .tree ?_⟩
    simp only [List.forall_mem_cons, List.not_mem_nil, false_imp_iff, implies_true, and_true]
    exact .leaf
  exact ⟨isOpen, candidates_flat isOpen _ .filesystem [], by rfl⟩

end Source

end TableScan
