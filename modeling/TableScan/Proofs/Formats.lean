import TableScan.Proofs.Planning

namespace TableScan

variable (g : Format → Format)

def Fragment.mapFormat (fr : Fragment) : Fragment := { fr with format := g fr.format }

namespace Source

def mapFormat : Source → Source
  | leaf kind s p fragments => leaf kind s p (fragments.map (·.mapFormat g))
  | tree s p sources => tree s p (allMapFormat sources)
where
  allMapFormat : List Source → List Source
    | [] => []
    | s :: rest => s.mapFormat :: allMapFormat rest

theorem candidate_mapFormat (filter : Expr) (fr : Fragment) : candidate filter (fr.mapFormat g) =
    (candidate filter fr).map (Option.map (Prod.map (·.mapFormat g) id)) := by
  unfold candidate
  rw [show (fr.mapFormat g).partition = fr.partition from rfl]
  cases filter.simplify fr.partition with
  | error e => rfl
  | ok u => cases h : u.isSatisfiable <;> simp [bind, Except.bind, pure, Except.pure, Except.map, h]

mutual

theorem candidates_mapFormat (filter : Expr) (s : Source) : (s.mapFormat g).candidates filter =
    (s.candidates filter).map (List.map (Prod.map (·.mapFormat g) id)) := by
  match s with
  | leaf kind schema p fragments =>
    unfold mapFormat candidates
    cases filter.simplify p with
    | error e => rfl
    | ok e =>
      simp only [bind, Except.bind]
      split
      · exact filterMapM_map (candidate_mapFormat g e) fragments
      · rfl
  | tree schema p sources =>
    unfold mapFormat candidates
    cases filter.simplify p with
    | error e => rfl
    | ok e =>
      simp only [bind, Except.bind]
      split
      · exact candidatesOf_mapFormat e sources
      · rfl

theorem candidatesOf_mapFormat (filter : Expr) (sources : List Source) :
    candidates.candidatesOf filter (mapFormat.allMapFormat g sources) =
      (candidates.candidatesOf filter sources).map (List.map (Prod.map (·.mapFormat g) id)) := by
  match sources with
  | [] => rfl
  | s :: rest =>
    unfold mapFormat.allMapFormat candidates.candidatesOf
    rw [candidates_mapFormat filter s, candidatesOf_mapFormat filter rest]
    cases s.candidates filter with
    | error e => rfl
    | ok first =>
      cases candidates.candidatesOf filter rest with
      | error e => rfl
      | ok others => simp [bind, Except.bind, pure, Except.pure, Except.map]

end

end Source

namespace Dataset

def mapFormat (d : Dataset) : Dataset := ⟨d.sources.map (·.mapFormat g), d.schema⟩

def candidates (filter : Expr) (d : Dataset) : Except Failure (List (Fragment × Expr)) :=
  (d.sources.mapM (Source.candidates filter)).map List.flatten

theorem candidates_mapFormat (filter : Expr) (d : Dataset) : (d.mapFormat g).candidates filter =
    (d.candidates filter).map (List.map (Prod.map (·.mapFormat g) id)) := by
  have hsources : (d.mapFormat g).sources.mapM (Source.candidates filter) =
      (d.sources.mapM (Source.candidates filter)).map
      (List.map (List.map (Prod.map (·.mapFormat g) id))) :=
    mapM_map (Source.candidates_mapFormat g filter) d.sources
  rw [candidates, candidates, hsources]
  cases d.sources.mapM (Source.candidates filter) with
  | error e => rfl
  | ok css => exact congrArg Except.ok List.map_flatten.symm

end Dataset

theorem Scan.tasks_eq_candidates (s : Scan) (projected : Schema) : s.tasks projected =
    (s.dataset.candidates s.filter).map (List.map { s with projected := projected }.task) := by
  have htasks (source : Source) : s.tasksOf projected source =
      (source.candidates s.filter).map (List.map { s with projected := projected }.task) := by
    unfold tasksOf
    cases source.candidates s.filter <;> rfl
  have hsources := mapM_map (g := id) htasks s.dataset.sources
  rw [List.map_id] at hsources
  rw [tasks, hsources, Dataset.candidates]
  cases s.dataset.sources.mapM (Source.candidates s.filter) with
  | error e => rfl
  | ok css => exact congrArg Except.ok List.map_flatten.symm

theorem Scan.plan_eq_candidates (s : Scan) :
    s.plan = (s.dataset.candidates s.filter).map (List.map s.task) :=
  s.tasks_eq_candidates s.projected

end TableScan
