import Mathlib.Data.List.Sort
import TableScan.Proofs.Merging
import TableScan.Proofs.TypeTexts

/-!
The order that schemas are put in before they are unified. It is a total order that tells schemas
apart by all but their metadata, so that the same schemas in another order are unified to the same
but for metadata, or fail the same. Schemas that differ in nothing but metadata keep the order that
they are given in, and the metadata of a field are those that it is first met with.
-/

namespace TableScan.Schema

open Std (ReflCmp TransCmp OrientedCmp LawfulEqCmp)

theorem compareFields_eq : compareFields =
    compareLex (compareOn Field.name)
    (compareLex (compareOn fun f => f.type.text) (compareOn Field.nullable)) := rfl

instance : TransCmp compareFields := by
  rw [compareFields_eq]
  infer_instance

theorem bare_of_compareFields {f g : Field} (h : compareFields f g = .eq) : f.bare = g.bare := by
  obtain ⟨hname, h⟩ := Ordering.then_eq_eq.1 h
  obtain ⟨htype, hnull⟩ := Ordering.then_eq_eq.1 h
  exact Field.bare_eq_iff.2 ⟨LawfulEqCmp.eq_of_compare hname,
    DataType.text_injective (LawfulEqCmp.eq_of_compare htype), LawfulEqCmp.eq_of_compare hnull⟩

theorem compareSchemas_eq : compareSchemas = List.compareLex compareFields := by
  funext s t
  induction s generalizing t with
  | nil => cases t <;> rfl
  | cons f s ih =>
    cases t with
    | nil => rfl
    | cons g t => rw [compareSchemas, ih, List.compareLex_cons_cons]

instance : TransCmp compareSchemas := by
  rw [compareSchemas_eq]
  infer_instance

theorem bare_of_compareSchemas {s t : Schema} (h : compareSchemas s t = .eq) : s.bare = t.bare := by
  induction s generalizing t with
  | nil =>
    cases t with
    | nil => rfl
    | cons g t => cases h
  | cons f s ih =>
    cases t with
    | nil => cases h
    | cons g t =>
      obtain ⟨hfields, hrest⟩ := Ordering.then_eq_eq.1 h
      rw [bare, bare, List.map_cons, List.map_cons, bare_of_compareFields hfields]
      exact congrArg _ (ih hrest)

theorem compareSchemas_bare (s t : Schema) : compareSchemas s.bare t.bare = compareSchemas s t := by
  induction s generalizing t with
  | nil => cases t <;> rfl
  | cons f s ih =>
    cases t with
    | nil => rfl
    | cons g t => exact congrArg (Ordering.then _) (ih t)

def precedes (s t : Schema) : Bool := compareSchemas s t != .gt

variable {r s t : Schema} {xs ys : List Schema}

theorem precedes_iff : precedes s t = true ↔ (compareSchemas s t).isLE = true := by
  rw [precedes, bne_iff_ne, Ordering.isLE_iff_ne_gt]

theorem precedes_trans (h : precedes r s) (h' : precedes s t) : precedes r t :=
  precedes_iff.2 (TransCmp.isLE_trans (precedes_iff.1 h) (precedes_iff.1 h'))

theorem precedes_total (s t : Schema) : (precedes s t || precedes t s) = true := by
  have hswap : compareSchemas t s = (compareSchemas s t).swap := OrientedCmp.eq_swap
  rw [Bool.or_eq_true, precedes_iff, precedes_iff, hswap]
  cases compareSchemas s t <;> decide

theorem precedes_antisymm (h : precedes s t) (h' : precedes t s) : s.bare = t.bare := by
  rw [precedes_iff] at h h'
  exact bare_of_compareSchemas (OrientedCmp.isLE_antisymm h h')

theorem canonical_perm (h : xs.Perm ys) (hbare : ∀ s ∈ xs, ∀ t ∈ xs, s.bare = t.bare → s = t) :
    canonical xs = canonical ys := by
  have hsorted (xs : List Schema) : (canonical xs).Pairwise fun s t => precedes s t = true :=
    @List.pairwise_mergeSort _ precedes (fun _ _ _ => precedes_trans) precedes_total xs
  have hmem {s : Schema} (hs : s ∈ canonical ys) : s ∈ xs := h.mem_iff.2 (List.mem_mergeSort.1 hs)
  have hperm : (canonical xs).Perm (canonical ys) :=
    (List.mergeSort_perm xs _).trans (h.trans (List.mergeSort_perm ys _).symm)
  exact List.Perm.eq_of_pairwise
    (fun s t hs ht hst hts => hbare s (List.mem_mergeSort.1 hs) t (hmem ht)
      (precedes_antisymm hst hts))
    (hsorted xs) (hsorted ys) hperm

theorem bare_bare (s : Schema) : s.bare.bare = s.bare := by
  rw [bare, bare, List.map_map]
  rfl

theorem canonical_bare (xs : List Schema) : canonical (xs.map bare) = (canonical xs).map bare :=
  (List.map_mergeSort fun s _ t _ => congrArg (· != .gt) (compareSchemas_bare s t).symm).symm

def Seen.bare (g : Seen) : Seen := { g with field := g.field.bare }

theorem meet_bare (f : Field) (seen : List Seen) :
    meet f.bare (seen.map Seen.bare) = (meet f seen).map (List.map Seen.bare) := by
  induction seen with
  | nil => rfl
  | cons g rest ih =>
    rw [List.map_cons, meet, meet, ih]
    by_cases hname : g.field.name = f.name
    · rw [if_pos hname, if_pos (show g.bare.field.name = f.bare.name from hname)]
      by_cases htype : g.field.type = f.type
      · rw [if_pos htype, if_pos (show g.bare.field.type = f.bare.type from htype)]
        rfl
      · rw [if_neg htype, if_neg (show ¬g.bare.field.type = f.bare.type from htype)]
        rfl
    · rw [if_neg hname, if_neg (show ¬g.bare.field.name = f.bare.name from hname)]
      cases meet f rest <;> rfl

theorem meetAll_bare (fields : Schema) (seen : List Seen) :
    meetAll (seen.map Seen.bare) fields.bare = (meetAll seen fields).map (List.map Seen.bare) := by
  induction fields generalizing seen with
  | nil => rfl
  | cons f fields ih =>
    calc meetAll (seen.map Seen.bare) (bare (f :: fields))
        = meet f.bare (seen.map Seen.bare) >>= fun met => meetAll met (bare fields) := rfl
      _ = (meet f seen).map (List.map Seen.bare) >>= fun met => meetAll met (bare fields) := by
        rw [meet_bare]
      _ = (meet f seen >>= fun met => meetAll met fields).map (List.map Seen.bare) := by
        cases meet f seen with
        | error c => rfl
        | ok met => exact ih met

theorem unify_bare (xs : List Schema) : unify (xs.map bare) = (unify xs).map bare := by
  have hflatten : ((canonical xs).map bare).flatten = bare (canonical xs).flatten :=
    List.map_flatten.symm
  have hmet : meetAll [] (bare (canonical xs).flatten) =
      (meetAll [] (canonical xs).flatten).map (List.map Seen.bare) := meetAll_bare _ []
  rw [unify, unify, canonical_bare, List.length_map, hflatten, hmet]
  cases meetAll [] (canonical xs).flatten with
  | error c => rfl
  | ok seen =>
    have hfinish (g : Seen) : g.bare.finish xs.length = (g.finish xs.length).bare := rfl
    simp [Except.map, bare, hfinish]

def firstMetadata (schemas : List Schema) (n : String) : Option Metadata :=
  (field? (canonical schemas).flatten n).map (·.metadata)

def seenMetadata (seen : List Seen) (n : String) : Option Metadata :=
  (seen.find? (·.field.name = n)).map (·.field.metadata)

theorem seenMetadata_cons (g : Seen) (rest : List Seen) (n : String) :
    seenMetadata (g :: rest) n = if g.field.name = n then some g.field.metadata
      else seenMetadata rest n := by
  by_cases h : g.field.name = n <;> simp [seenMetadata, h]

theorem seenMetadata_meet {f : Field} {seen seen' : List Seen} (h : meet f seen = .ok seen')
    (n : String) :
    seenMetadata seen' n = (seenMetadata seen n).or
    (if f.name = n then some f.metadata else none) := by
  induction seen generalizing seen' with
  | nil =>
    cases h
    exact seenMetadata_cons ⟨f, 1⟩ [] n
  | cons g rest ih =>
    unfold meet at h
    split at h
    · rename_i hname
      split at h
      · cases h
        rw [seenMetadata_cons, seenMetadata_cons, hname]
        split
        · rfl
        · exact (Option.or_none).symm
      · cases h
    · obtain ⟨rest', hrest, rfl⟩ := map_eq_ok.1 h
      rw [seenMetadata_cons, seenMetadata_cons, ih hrest]
      split <;> rfl

theorem seenMetadata_meetAll {fields : Schema} {seen seen' : List Seen}
    (h : meetAll seen fields = .ok seen') (n : String) :
    seenMetadata seen' n = (seenMetadata seen n).or ((fields.field? n).map (·.metadata)) := by
  induction fields generalizing seen with
  | nil =>
    cases h
    exact Option.or_none.symm
  | cons f fields ih =>
    obtain ⟨met, hmet, h⟩ := bind_eq_ok.1 h
    rw [ih h, seenMetadata_meet hmet, Option.or_assoc]
    congr 1
    by_cases hf : f.name = n <;> simp [field?, hf]

theorem metadata_unify {u : Schema} (h : unify xs = .ok u) (n : String) :
    (u.field? n).map (·.metadata) = firstMetadata xs n := by
  obtain ⟨seen, hseen, rfl⟩ := unify_eq_ok.1 h
  have hfirst : seenMetadata seen n = firstMetadata xs n :=
    (seenMetadata_meetAll hseen n).trans (Option.none_or)
  rw [← hfirst, field?, List.find?_map, Option.map_map]
  rfl

theorem eq_of_bare {u v : Schema} (hu : u.names.Nodup) (hbare : u.bare = v.bare)
    (h : ∀ n, (u.field? n).map (·.metadata) = (v.field? n).map (·.metadata)) : u = v := by
  have hv : v.names.Nodup := by rwa [← names_bare, ← hbare, names_bare]
  have hlength := congrArg List.length hbare
  rw [bare, bare, List.length_map, List.length_map] at hlength
  refine List.ext_getElem hlength fun i hi hi' => ?_
  have hsame : u[i].bare = v[i].bare := by
    simpa [bare] using List.getElem_of_eq hbare (by simpa [bare] using hi)
  obtain ⟨hname, htype, hnull⟩ := Field.bare_eq_iff.1 hsame
  have hmetadata := h u[i].name
  rw [field?, find?_of_nodup hu (List.getElem_mem hi), field?, hname,
    find?_of_nodup hv (List.getElem_mem hi')] at hmetadata
  exact Field.ext hname htype hnull (Option.some.inj hmetadata)

/--
Schemas in any order are found to conflict in the same way, or are unified to the same fields in the
same order, but for metadata: a field keeps those that it is first met with, and schemas that differ
in nothing else are met in the order that they are given in. The fields are the same with their
metadata just where the same is first met under each name, as it is where no two of the schemas
differ in metadata only.
-/
theorem unify_perm (h : xs.Perm ys) :
    (∃ u v, unify xs = .ok u ∧ unify ys = .ok v ∧ u.bare = v.bare ∧
      (u = v ↔ ∀ n, firstMetadata xs n = firstMetadata ys n) ∧
      ((∀ s ∈ xs, ∀ t ∈ xs, s.bare = t.bare → s = t) → u = v)) ∨
    ∃ c : SchemaFault, unify xs = .error c ∧ unify ys = .error c := by
  have hbare : (unify xs).map bare = (unify ys).map bare := by
    rw [← unify_bare, ← unify_bare, unify, unify, canonical_perm (h.map bare), List.length_map,
      List.length_map, h.length_eq]
    intro s hs t ht hst
    obtain ⟨s, -, rfl⟩ := List.mem_map.1 hs
    obtain ⟨t, -, rfl⟩ := List.mem_map.1 ht
    rwa [bare_bare, bare_bare] at hst
  cases hu : unify xs with
  | error e =>
    obtain ⟨f, -, g, -, -, -, rfl⟩ := unify_eq_error hu
    rw [hu] at hbare
    cases hv : unify ys with
    | error e' =>
      rw [hv] at hbare
      cases hbare
      exact .inr ⟨_, rfl, rfl⟩
    | ok v =>
      rw [hv] at hbare
      cases hbare
  | ok u =>
    rw [hu] at hbare
    cases hv : unify ys with
    | error e =>
      rw [hv] at hbare
      cases hbare
    | ok v =>
      rw [hv] at hbare
      have hsame : u.bare = v.bare := Except.ok.inj hbare
      refine .inl ⟨u, v, rfl, rfl, hsame, ⟨fun huv n => ?_, fun hfirst => ?_⟩, fun hdistinct => ?_⟩
      · rw [← metadata_unify hu, ← metadata_unify hv, huv]
      · refine eq_of_bare (nodup_names_unify hu) hsame fun n => ?_
        rw [metadata_unify hu, metadata_unify hv, hfirst]
      · have heq : unify xs = unify ys := by
          rw [unify, unify, canonical_perm h hdistinct, h.length_eq]
        exact Except.ok.inj (hu.symm.trans (heq.trans hv))

/-- A name comes twice in one schema, and the order in which the fields are met is that of the
sorted schemas. -/
theorem unify_perm_reversed :
    let xs := [integers true ["b"], integers false ["b", "a"], integers true ["a", "a"]]
    let u := integers true ["a", "b"]
    xs.Perm xs.reverse ∧ (∀ s ∈ xs, ∀ t ∈ xs, s.bare = t.bare → s = t) ∧ unify xs.reverse = .ok u ∧
      unify xs = .ok u := by
  intro xs u
  have hperm : xs.Perm xs.reverse := xs.reverse_perm.symm
  have hdistinct : ∀ s ∈ xs, ∀ t ∈ xs, s.bare = t.bare → s = t := by decide
  have hu : unify xs.reverse = .ok u := by
    rw [unify, canonical_of_pairwise (by decide +kernel)]
    decide +kernel
  refine ⟨hperm, hdistinct, hu, ?_⟩
  rcases unify_perm hperm with ⟨w, v, hw, hv, -, -, hsame⟩ | ⟨c, -, hc⟩
  · cases hu.symm.trans hv
    rw [hw, hsame hdistinct]
  · cases hu.symm.trans hc

def numbered (id : String) : Schema :=
  [⟨"x", .int .int32, false, ⟨[("PARQUET:field_id", id)], List.pairwise_singleton _ _⟩⟩]

/-- Two schemas that differ in the number of a field only: that of the first is kept. -/
theorem unify_perm_numbered :
    [numbered "1", numbered "2"].Perm [numbered "2", numbered "1"] ∧
      unify [numbered "1", numbered "2"] = .ok (numbered "1") ∧
      unify [numbered "2", numbered "1"] = .ok (numbered "2") ∧ numbered "1" ≠ numbered "2" := by
  refine ⟨.swap _ _ [], ?_, ?_, by decide⟩
  · rw [unify, canonical_of_pairwise (by decide +kernel)]
    decide +kernel
  · rw [unify, canonical_of_pairwise (by decide +kernel)]
    decide +kernel

end TableScan.Schema
