import Mathlib.Data.List.Nodup
import TableScan.Schema.Unify
import TableScan.Proofs.Rows

namespace TableScan.Schema

def seenOf (seen : List Seen) (n : String) : Option DataType :=
  (seen.find? (·.field.name = n)).map (·.field.type)

theorem seenOf_cons (g : Seen) (rest : List Seen) (n : String) :
    seenOf (g :: rest) n = if g.field.name = n then some g.field.type else seenOf rest n := by
  by_cases h : g.field.name = n <;> simp [seenOf, h]

theorem seenOf_meet {f : Field} {seen seen' : List Seen} (h : meet f seen = .ok seen') :
    seenOf seen' f.name = some f.type ∧ ∀ n t, seenOf seen n = some t →
    seenOf seen' n = some t := by
  induction seen generalizing seen' with
  | nil =>
    cases h
    exact ⟨by simp [seenOf], nofun⟩
  | cons g rest ih =>
    unfold meet at h
    split at h
    · rename_i hname
      split at h
      · rename_i htype
        cases h
        refine ⟨by rw [seenOf_cons, if_pos hname, htype], fun n t hn => ?_⟩
        rw [seenOf_cons] at hn ⊢
        exact hn
      · cases h
    · rename_i hname
      obtain ⟨rest', hrest, rfl⟩ := map_eq_ok.1 h
      obtain ⟨hf, hother⟩ := ih hrest
      refine ⟨by rw [seenOf_cons, if_neg hname, hf], fun n t hn => ?_⟩
      rw [seenOf_cons] at hn ⊢
      split at hn
      · rename_i hg
        rw [if_pos hg, hn]
      · rename_i hg
        rw [if_neg hg]
        exact hother n t hn

theorem seenOf_meetAll {seen seen' : List Seen} {fields : List Field}
    (h : meetAll seen fields = .ok seen') :
    (∀ f ∈ fields, seenOf seen' f.name = some f.type) ∧
      ∀ n t, seenOf seen n = some t → seenOf seen' n = some t := by
  induction fields generalizing seen with
  | nil =>
    cases h
    exact ⟨nofun, fun n t hn => hn⟩
  | cons f fields ih =>
    obtain ⟨met, hmet, h⟩ := bind_eq_ok.1 h
    obtain ⟨hfields, hother⟩ := ih h
    obtain ⟨hf, hseen⟩ := seenOf_meet hmet
    exact ⟨List.forall_mem_cons.2 ⟨hother _ _ hf, hfields⟩, fun n t hn => hother n t (hseen n t hn)⟩

theorem unify_eq_ok {schemas : List Schema} {u : Schema} : unify schemas = .ok u ↔
    ∃ seen, meetAll [] (canonical schemas).flatten = .ok seen ∧
      u = seen.map (Seen.finish schemas.length) := by
  unfold unify
  cases meetAll [] (canonical schemas).flatten with
  | error e => simp
  | ok seen => simp [eq_comm]

theorem typeOf_unify {schemas : List Schema} {u : Schema} (h : unify schemas = .ok u) {s : Schema}
    (hs : s ∈ schemas) {f : Field} (hf : f ∈ s) :
    ∃ g, u.field? f.name = some g ∧ g.type = f.type := by
  obtain ⟨seen, hseen, rfl⟩ := unify_eq_ok.1 h
  have hmem : f ∈ (canonical schemas).flatten :=
    List.mem_flatten.2 ⟨s, List.mem_mergeSort.2 hs, hf⟩
  obtain ⟨g, hg, ht⟩ := Option.map_eq_some_iff.1 ((seenOf_meetAll hseen).1 f hmem)
  refine ⟨g.finish schemas.length, ?_, ht⟩
  rw [field?, List.find?_map]
  exact congrArg (Option.map (Seen.finish schemas.length)) hg

theorem meet_append {f : Field} {before : List Seen} (h : ∀ g ∈ before, g.field.name ≠ f.name)
    (rest : List Seen) :
    meet f (before ++ rest) = (before ++ ·) <$> meet f rest := by
  induction before with
  | nil => exact (id_map (meet f rest)).symm
  | cons g before ih =>
    rw [List.cons_append, meet, if_neg (h g List.mem_cons_self),
      ih fun g hg => h g (List.mem_cons_of_mem _ hg)]
    cases meet f rest <;> rfl

section Copies

variable {before fields s : Schema}

theorem forall_ne_of_nodup {f : Field} (h : ((before ++ f :: fields).map (·.name)).Nodup)
    (c : Nat) :
    ∀ g ∈ before.map (Seen.mk · c), g.field.name ≠ f.name := by
  rw [List.map_append, List.nodup_append] at h
  intro g hg
  obtain ⟨f', hf', rfl⟩ := List.mem_map.1 hg
  exact h.2.2 _ (List.mem_map_of_mem hf') _ (List.mem_map_of_mem List.mem_cons_self)

theorem meetAll_new (h : ((before ++ fields).map (·.name)).Nodup) :
    meetAll (before.map (⟨·, 1⟩)) fields = .ok ((before ++ fields).map (⟨·, 1⟩)) := by
  induction fields generalizing before with
  | nil => rw [List.append_nil]; rfl
  | cons f fields ih =>
    have hmet := meet_append (forall_ne_of_nodup h 1) []
    rw [List.append_nil] at hmet
    rw [List.append_cons] at h ⊢
    refine bind_eq_ok.2 ⟨(before ++ [f]).map (⟨·, 1⟩), hmet.trans ?_, ih h⟩
    rw [List.map_append]
    rfl

theorem meetAll_again (c : Nat) (h : ((before ++ fields).map (·.name)).Nodup) :
    meetAll (before.map (⟨·, c + 1⟩) ++ fields.map (⟨·, c⟩)) fields =
      .ok ((before ++ fields).map (⟨·, c + 1⟩)) := by
  induction fields generalizing before with
  | nil => rw [List.map_nil, List.append_nil, List.append_nil]; rfl
  | cons f fields ih =>
    have hmet := meet_append (forall_ne_of_nodup h (c + 1)) ((f :: fields).map (⟨·, c⟩))
    rw [List.append_cons] at h ⊢
    refine bind_eq_ok.2 ⟨(before ++ [f]).map (Seen.mk · (c + 1)) ++ fields.map (Seen.mk · c),
      hmet.trans ?_, ih h⟩
    rw [List.map_cons, meet, if_pos rfl, if_pos rfl, Bool.or_self, List.map_append,
      List.append_assoc]
    rfl

theorem unify_replicate (h : (s.map (·.name)).Nodup) (n : Nat) :
    unify (List.replicate (n + 1) s) = .ok s := by
  have hmeet (n : Nat) : meetAll [] (List.replicate (n + 1) s).flatten =
      .ok (s.map (⟨·, n + 1⟩)) := by
    induction n with
    | zero =>
      rw [List.replicate_one, List.flatten_singleton]
      exact @meetAll_new [] s h
    | succ n ih =>
      rw [List.replicate_succ', List.flatten_append, List.flatten_singleton, meetAll,
        List.foldlM_append]
      exact bind_eq_ok.2 ⟨_, ih, @meetAll_again [] s (n + 1) h⟩
  have hcanonical : canonical (List.replicate (n + 1) s) = List.replicate (n + 1) s :=
    List.perm_replicate.1 (List.mergeSort_perm _ _)
  rw [unify_eq_ok]
  refine ⟨_, by rw [hcanonical, hmeet], ?_⟩
  rw [List.map_map]
  refine (List.map_id s).symm.trans (List.map_congr_left fun f _ => ?_)
  simp [Seen.finish]

end Copies

def tally (seen : List Seen) (n : String) : Nat × Bool :=
  ((seen.find? (·.field.name = n)).map fun g => (g.count, g.field.nullable)).getD (0, false)

theorem tally_cons (g : Seen) (rest : List Seen) (n : String) :
    tally (g :: rest) n = if g.field.name = n then (g.count, g.field.nullable)
      else tally rest n := by
  by_cases h : g.field.name = n <;> simp [tally, h]

theorem tally_meet {f : Field} {seen seen' : List Seen} (h : meet f seen = .ok seen') (n : String) :
    tally seen' n =
      if f.name = n then ((tally seen n).1 + 1, (tally seen n).2 || f.nullable)
        else tally seen n := by
  induction seen generalizing seen' with
  | nil =>
    cases h
    exact tally_cons ⟨f, 1⟩ [] n
  | cons g rest ih =>
    unfold meet at h
    split at h
    · rename_i hname
      split at h
      · cases h
        rw [tally_cons, tally_cons, hname]
        split <;> rfl
      · cases h
    · rename_i hname
      obtain ⟨rest', hrest, rfl⟩ := map_eq_ok.1 h
      rw [tally_cons, tally_cons, ih hrest]
      by_cases hg : g.field.name = n
      · rw [if_pos hg, if_pos hg, if_neg fun hf => hname (hg.trans hf.symm)]
      · rw [if_neg hg, if_neg hg]

theorem tally_meetAll {seen seen' : List Seen} {fields : List Field}
    (h : meetAll seen fields = .ok seen') (n : String) :
    tally seen' n = ((tally seen n).1 + fields.countP (·.name = n),
      (tally seen n).2 || fields.any fun f => f.name = n && f.nullable) := by
  induction fields generalizing seen with
  | nil =>
    cases h
    simp
  | cons f fields ih =>
    obtain ⟨met, hmet, h⟩ := bind_eq_ok.1 h
    rw [ih h, tally_meet hmet n]
    by_cases hf : f.name = n
    · rw [if_pos hf, List.countP_cons_of_pos (by simpa using hf), List.any_cons]
      simp only [hf, decide_true, Bool.true_and, Bool.or_assoc, Prod.mk.injEq, and_true]
      omega
    · rw [if_neg hf, List.countP_cons_of_neg (by simpa using hf), List.any_cons]
      simp [hf]

theorem required_unify {schemas : List Schema} {u : Schema} (h : unify schemas = .ok u) {n : String}
    {f : Field} (hf : u.field? n = some f) (hr : f.nullable = false) :
    (∀ s ∈ schemas, ∀ g ∈ s, g.name = n → g.nullable = false) ∧
      schemas.length ≤ schemas.flatten.countP (·.name = n) := by
  have hperm : (canonical schemas).Perm schemas := List.mergeSort_perm _ _
  obtain ⟨seen, hseen, rfl⟩ := unify_eq_ok.1 h
  rw [field?, List.find?_map] at hf
  obtain ⟨g, hg, rfl⟩ := Option.map_eq_some_iff.1 hf
  obtain ⟨hnull, hcount⟩ := Bool.or_eq_false_iff.1 hr
  have htally : tally seen n = (g.count, g.field.nullable) := by
    have hg' : seen.find? (·.field.name = n) = some g := hg
    rw [tally, hg']
    rfl
  obtain ⟨hsum, hfields⟩ := Prod.mk.inj (htally.symm.trans (tally_meetAll hseen n))
  constructor
  · intro s hs g' hg' hname
    rw [hnull, eq_comm, Bool.or_eq_false_iff, List.any_eq_false] at hfields
    have hnot := hfields.2 g' (List.mem_flatten.2 ⟨s, hperm.mem_iff.2 hs, hg'⟩)
    simpa [hname] using hnot
  · rw [hperm.flatten.countP_eq] at hsum
    simp only [decide_eq_false_iff_not, not_lt] at hcount
    exact hcount.trans_eq (hsum.trans (Nat.zero_add _))

theorem countP_flatten_le {schemas : List Schema} {p : Field → Bool}
    (h : ∀ s ∈ schemas, s.countP p ≤ 1) :
    schemas.flatten.countP p ≤ schemas.length ∧
      (schemas.length ≤ schemas.flatten.countP p → ∀ s ∈ schemas, s.countP p = 1) := by
  induction schemas with
  | nil => exact ⟨le_rfl, fun _ => nofun⟩
  | cons s schemas ih =>
    rw [List.forall_mem_cons] at h
    obtain ⟨hle, hone⟩ := ih h.2
    have hs := h.1
    rw [List.flatten_cons, List.countP_append, List.length_cons]
    exact ⟨by omega, fun hsum => List.forall_mem_cons.2 ⟨by omega, hone (by omega)⟩⟩

theorem field?_of_required {schemas : List Schema} {u : Schema} (h : unify schemas = .ok u)
    (hnodup : ∀ s ∈ schemas, s.names.Nodup) {n : String} {f : Field} (hf : u.field? n = some f)
    (hr : f.nullable = false) {s : Schema} (hs : s ∈ schemas) : ∃ g, s.field? n = some g := by
  have hle (s : Schema) (hs : s ∈ schemas) : s.countP (·.name = n) ≤ 1 := by
    have hcount := List.nodup_iff_count_le_one.1 (hnodup s hs) n
    rw [names, List.count_eq_countP, List.countP_map] at hcount
    refine hcount.trans' (le_of_eq (List.countP_congr fun f _ => ?_))
    simp
  have hone := (countP_flatten_le hle).2 (required_unify h hf hr).2 s hs
  obtain ⟨g, hg, hname⟩ := List.countP_pos_iff.1 (hone ▸ Nat.one_pos)
  exact Option.isSome_iff_exists.1 (List.find?_isSome.2 ⟨g, hg, hname⟩)

theorem field?_new {s partition : Schema} {os : List (Option Field)}
    (h : List.Forall₂ (fun f o => (match s.field? f.name with
      | some old =>
        if old.type = f.type then pure none
        else throw (Failure.schema (.partition f.name f.type old.type))
      | none => pure (some f) : Except Failure (Option Field)) = .ok o) partition os)
    {n : String} {f : Field} (hf : partition.field? n = some f) :
    (∀ old, s.field? n = some old → old.type = f.type) ∧
      (s.field? n = none → Schema.field? (os.filterMap id) n = some f) := by
  induction h with
  | nil => cases hf
  | @cons g o partition os hg _ ih =>
    rw [field?, List.find?_cons] at hf
    by_cases hn : g.name = n
    · simp only [hn, decide_true, Option.some.injEq] at hf
      subst hf
      rw [hn] at hg
      split at hg
      · rename_i old hold
        rw [hold]
        split at hg
        · rename_i ht
          exact ⟨fun old' h => by cases h; exact ht, fun h => by cases h⟩
        · cases hg
      · rename_i hnone
        cases hg
        rw [hnone]
        refine ⟨fun _ h => ?_, fun _ => by simp [field?, hn]⟩
        cases h
    · simp only [hn, decide_false] at hf
      obtain ⟨hold, hnew⟩ := ih hf
      refine ⟨hold, fun hnone => ?_⟩
      have hrest := hnew hnone
      split at hg
      · split at hg
        · cases hg
          exact hrest
        · cases hg
      · cases hg
        simp only [List.filterMap_cons, id, field?, List.find?_cons, hn, decide_false]
        exact hrest

theorem field?_appendPartition {s partition u : Schema} (h : s.appendPartition partition = .ok u)
    (n : String) : (∀ f, s.field? n = some f → u.field? n = some f) ∧
      ∀ f, partition.field? n = some f → ∃ g, u.field? n = some g ∧ g.type = f.type := by
  obtain ⟨new, hnew, h⟩ := bind_eq_ok.1 h
  cases h
  obtain ⟨os, hos, rfl⟩ := filterMapM_eq_ok.1 hnew
  simp only [field?, List.find?_append]
  refine ⟨fun f hf => by rw [hf]; rfl, fun f hf => ?_⟩
  obtain ⟨hold, hfirst⟩ := field?_new hos hf
  cases hs : s.find? (fun f => decide (f.name = n)) with
  | some old => exact ⟨old, rfl, hold old hs⟩
  | none => exact ⟨f, hfirst hs, rfl⟩

end TableScan.Schema
