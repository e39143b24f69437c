import TableScan.Proofs.Unification

namespace TableScan

def Field.bare (f : Field) : Field := { f with metadata := .empty }

theorem Field.bare_eq_iff {f g : Field} :
    f.bare = g.bare ↔ f.name = g.name ∧ f.type = g.type ∧ f.nullable = g.nullable := by
  simp [Field.bare]

namespace Schema

def bare (s : Schema) : Schema := s.map Field.bare

theorem names_bare (s : Schema) : s.bare.names = s.names := by
  rw [names, names, bare, List.map_map]
  rfl

def IsUniform (fields : List Field) : Prop :=
  ∀ f ∈ fields, ∀ g ∈ fields, f.name = g.name → f.type = g.type

theorem meet_eq_error {f : Field} {seen : List Seen} {c : SchemaFault}
    (h : meet f seen = .error c) :
    ∃ g ∈ seen, g.field.name = f.name ∧ g.field.type ≠ f.type ∧
      c = .types f.name g.field.type f.type := by
  induction seen generalizing c with
  | nil => cases h
  | cons g rest ih =>
    unfold meet at h
    split at h
    · rename_i hname
      split at h
      · cases h
      · rename_i htype
        cases h
        exact ⟨g, List.mem_cons_self, hname, htype, rfl⟩
    · cases hrest : meet f rest with
      | error c' =>
        rw [hrest] at h
        cases h
        obtain ⟨g', hg', hconflict⟩ := ih hrest
        exact ⟨g', List.mem_cons_of_mem g hg', hconflict⟩
      | ok seen' =>
        rw [hrest] at h
        cases h

theorem field_of_meet {f : Field} {seen seen' : List Seen} (h : meet f seen = .ok seen') {g : Seen}
    (hg : g ∈ seen') :
    (g.field.name = f.name ∧ g.field.type = f.type) ∨
      ∃ g' ∈ seen, g.field.name = g'.field.name ∧ g.field.type = g'.field.type := by
  induction seen generalizing seen' with
  | nil =>
    cases h
    rw [List.mem_singleton.1 hg]
    exact .inl ⟨rfl, rfl⟩
  | cons g₀ rest ih =>
    unfold meet at h
    split at h
    · split at h
      · cases h
        rcases List.mem_cons.1 hg with rfl | hg
        · exact .inr ⟨g₀, List.mem_cons_self, rfl, rfl⟩
        · exact .inr ⟨g, List.mem_cons_of_mem g₀ hg, rfl, rfl⟩
      · cases h
    · obtain ⟨rest', hrest, rfl⟩ := map_eq_ok.1 h
      rcases List.mem_cons.1 hg with rfl | hg
      · exact .inr ⟨g, List.mem_cons_self, rfl, rfl⟩
      · apply (ih hrest hg).imp_right
        rintro ⟨g', hg', hsame⟩
        exact ⟨g', List.mem_cons_of_mem g₀ hg', hsame⟩

theorem conflict_of_meetAll {fields : List Field} {c : SchemaFault}
    (h : meetAll [] fields = .error c) :
    ∃ f ∈ fields, ∃ g ∈ fields, f.name = g.name ∧ f.type ≠ g.type ∧
      c = .types f.name f.type g.type := by
  -- whatever was seen before the fault is a field of the list, under its type
  obtain ⟨g, hg, seen, hseen, hfail⟩ := foldlM_eq_error
    (P := fun seen => ∀ g ∈ seen, ∃ f ∈ fields, f.name = g.field.name ∧ f.type = g.field.type)
    (fun f hf seen seen' hseen hmet g hg => by
      rcases field_of_meet hmet hg with ⟨hname, htype⟩ | ⟨g', hg', hname, htype⟩
      · exact ⟨f, hf, hname.symm, htype.symm⟩
      · obtain ⟨f', hf', hname', htype'⟩ := hseen g' hg'
        exact ⟨f', hf', hname'.trans hname.symm, htype'.trans htype.symm⟩)
    (fun g hg => absurd hg List.not_mem_nil) h
  obtain ⟨old, hold, hname, htype, rfl⟩ := meet_eq_error hfail
  obtain ⟨f, hf, hname', htype'⟩ := hseen old hold
  have hsame := hname'.trans hname
  exact ⟨f, hf, g, hg, hsame, htype' ▸ htype, by rw [hsame, htype']⟩

theorem exists_meetAll {fields : List Field} (h : IsUniform fields) :
    ∃ seen, meetAll [] fields = .ok seen := by
  cases hmeet : meetAll [] fields with
  | ok seen => exact ⟨seen, rfl⟩
  | error c =>
    obtain ⟨f, hf, g, hg, hname, htype, -⟩ := conflict_of_meetAll hmeet
    exact absurd (h f hf g hg hname) htype

theorem exists_unify {schemas : List Schema} :
    (∃ u, unify schemas = .ok u) ↔ IsUniform schemas.flatten := by
  have hperm : (canonical schemas).flatten.Perm schemas.flatten := (List.mergeSort_perm _ _).flatten
  constructor
  · rintro ⟨u, hu⟩ f hf g hg hname
    obtain ⟨s, hs, hf⟩ := List.mem_flatten.1 hf
    obtain ⟨t, ht, hg⟩ := List.mem_flatten.1 hg
    obtain ⟨f', hf', hftype⟩ := typeOf_unify hu hs hf
    obtain ⟨g', hg', hgtype⟩ := typeOf_unify hu ht hg
    rw [hname, hg'] at hf'
    cases hf'
    exact hftype.symm.trans hgtype
  · intro h
    obtain ⟨seen, hseen⟩ :=
      exists_meetAll fun f hf g hg => h f (hperm.mem_iff.1 hf) g (hperm.mem_iff.1 hg)
    exact ⟨_, unify_eq_ok.2 ⟨seen, hseen, rfl⟩⟩

def seenNames (seen : List Seen) : List String := seen.map (·.field.name)

theorem seenNames_meet {f : Field} {seen seen' : List Seen} (h : meet f seen = .ok seen') :
    seenNames seen' = if f.name ∈ seenNames seen then seenNames seen
      else seenNames seen ++ [f.name] := by
  induction seen generalizing seen' with
  | nil =>
    cases h
    rfl
  | cons g rest ih =>
    unfold meet at h
    split at h
    · rename_i hname
      split at h
      · cases h
        simp [seenNames, hname]
      · cases h
    · rename_i hname
      obtain ⟨rest', hrest, rfl⟩ := map_eq_ok.1 h
      have hcons (seen : List Seen) : seenNames (g :: seen) = g.field.name :: seenNames seen := rfl
      rw [hcons, ih hrest, hcons]
      by_cases hmem : f.name ∈ seenNames rest
      · rw [if_pos hmem, if_pos (List.mem_cons_of_mem _ hmem)]
      · rw [if_neg hmem, if_neg fun h => (List.mem_cons.1 h).elim (Ne.symm hname) hmem,
          List.cons_append]

theorem seenNames_meetAll {fields : List Field} {seen seen' : List Seen}
    (h : meetAll seen fields = .ok seen') :
    seenNames seen' = seenNames seen ++ ((names fields).removeAll (seenNames seen)).eraseDups := by
  induction fields generalizing seen with
  | nil =>
    cases h
    simp [names]
  | cons f fields ih =>
    obtain ⟨met, hmet, h⟩ := bind_eq_ok.1 h
    have hcons : names (f :: fields) = f.name :: names fields := rfl
    rw [ih h, seenNames_meet hmet, hcons]
    by_cases hmem : f.name ∈ seenNames seen
    · rw [if_pos hmem, List.cons_removeAll, if_neg (by simpa using hmem)]
    · rw [if_neg hmem, List.cons_removeAll, if_pos (by simpa using hmem), List.eraseDups_cons]
      simp [List.removeAll, List.filter_filter, Bool.and_comm, Bool.beq_eq_decide_eq]

def firstNames (schemas : List Schema) : List String :=
  (names (canonical schemas).flatten).eraseDups

theorem nodup_eraseDups {α : Type} [BEq α] [LawfulBEq α] (as : List α) : as.eraseDups.Nodup := by
  induction h : as.length using Nat.strong_induction_on generalizing as with
  | _ n ih =>
    cases as with
    | nil => exact List.nodup_nil
    | cons a as =>
      subst h
      rw [List.eraseDups_cons]
      refine List.nodup_cons.2 ⟨fun hmem => ?_,
        ih _ (Nat.lt_succ_of_le (List.length_filter_le _ _)) _ rfl⟩
      simpa using List.of_mem_filter (List.mem_eraseDups.1 hmem)

theorem names_finish (total : Nat) (seen : List Seen) :
    names (seen.map (Seen.finish total)) = seenNames seen := by
  rw [names, List.map_map]
  rfl

theorem names_unify {schemas : List Schema} {u : Schema} (h : unify schemas = .ok u) :
    u.names = firstNames schemas := by
  obtain ⟨seen, hseen, rfl⟩ := unify_eq_ok.1 h
  rw [names_finish, seenNames_meetAll hseen]
  simp [seenNames, List.removeAll, firstNames]

theorem nodup_names_unify {schemas : List Schema} {u : Schema} (h : unify schemas = .ok u) :
    u.names.Nodup := by
  rw [names_unify h]
  exact nodup_eraseDups _

def MayLack (s : Schema) (n : String) : Prop :=
  n ∉ s.names ∨ ∃ g ∈ s, g.name = n ∧ g.nullable = true

/-- A field as schemas have it together: of a type that it has in one, and nullable where rows of
one may lack it. -/
structure IsMerged (schemas : List Schema) (f : Field) : Prop where
  typed : ∃ s ∈ schemas, ∃ g ∈ s, g.name = f.name ∧ g.type = f.type
  nullable : f.nullable = true ↔ ∃ s ∈ schemas, s.MayLack f.name

theorem count_names (s : Schema) (n : String) : s.names.count n = s.countP (·.name = n) := by
  rw [names, List.count_eq_countP, List.countP_map]
  exact List.countP_congr fun f _ => by simp

theorem exists_not_mem_of_countP_lt {schemas : List Schema} {n : String}
    (h : schemas.flatten.countP (·.name = n) < schemas.length) : ∃ s ∈ schemas, n ∉ s.names := by
  induction schemas with
  | nil => cases h
  | cons s schemas ih =>
    rw [List.flatten_cons, List.countP_append, List.length_cons, ← count_names] at h
    by_cases hn : n ∈ s.names
    · have hpos := List.count_pos_iff.2 hn
      obtain ⟨t, ht, hlack⟩ := ih (by omega)
      exact ⟨t, List.mem_cons_of_mem s ht, hlack⟩
    · exact ⟨s, List.mem_cons_self, hn⟩

theorem countP_flatten_lt {schemas : List Schema} {n : String}
    (h : ∀ s ∈ schemas, s.names.count n ≤ 1) :
    schemas.flatten.countP (·.name = n) < schemas.length ↔ ∃ s ∈ schemas, n ∉ s.names := by
  refine ⟨exists_not_mem_of_countP_lt, fun ⟨s, hs, hlack⟩ => ?_⟩
  obtain ⟨hle, hone⟩ := countP_flatten_le fun s hs => (count_names s n) ▸ h s hs
  refine lt_of_le_of_ne hle fun heq => hlack ?_
  have hcount := hone heq.ge s hs
  rw [← count_names] at hcount
  exact List.count_pos_iff.1 (hcount ▸ Nat.one_pos)

theorem nullable_iff_of_mem_unify {schemas : List Schema} {u : Schema} (h : unify schemas = .ok u)
    {f : Field} (hf : f ∈ u) :
    f.nullable = true ↔ (∃ s ∈ schemas, ∃ g ∈ s, g.name = f.name ∧ g.nullable = true) ∨
      schemas.flatten.countP (·.name = f.name) < schemas.length := by
  have hperm : (canonical schemas).Perm schemas := List.mergeSort_perm _ _
  have hnodup := nodup_names_unify h
  obtain ⟨seen, hseen, rfl⟩ := unify_eq_ok.1 h
  rw [names_finish] at hnodup
  obtain ⟨g, hg, rfl⟩ := List.mem_map.1 hf
  have hfind : seen.find? (·.field.name = g.field.name) = some g := find?_of_nodup hnodup hg
  have htally := tally_meetAll hseen g.field.name
  rw [tally, hfind] at htally
  obtain ⟨hcount, hnull⟩ := Prod.mk.inj htally
  rw [show (tally [] g.field.name).1 = 0 from rfl, Nat.zero_add, hperm.flatten.countP_eq] at hcount
  rw [show (tally [] g.field.name).2 = false from rfl, Bool.false_or] at hnull
  have hsome : g.field.nullable = true ↔ ∃ s ∈ schemas, ∃ f ∈ s, f.name = g.field.name ∧
      f.nullable = true := by
    rw [hnull, List.any_eq_true]
    simp only [hperm.flatten.mem_iff, List.mem_flatten, Bool.and_eq_true, decide_eq_true_iff]
    constructor
    · rintro ⟨f, ⟨s, hs, hf⟩, hnull⟩
      exact ⟨s, hs, f, hf, hnull⟩
    · rintro ⟨s, hs, f, hf, hnull⟩
      exact ⟨f, ⟨s, hs, hf⟩, hnull⟩
  calc (g.finish schemas.length).nullable = true
      ↔ g.field.nullable = true ∨ g.count < schemas.length := by
        simp only [Seen.finish, Bool.or_eq_true, decide_eq_true_iff]
    _ ↔ _ := by rw [hsome, hcount]; rfl

theorem exists_mayLack {schemas : List Schema} {n : String} : (∃ s ∈ schemas, s.MayLack n) ↔
    (∃ s ∈ schemas, ∃ g ∈ s, g.name = n ∧ g.nullable = true) ∨ ∃ s ∈ schemas, n ∉ s.names := by
  simp only [MayLack, and_or_left, exists_or]
  exact or_comm

theorem isMerged_of_mem {schemas : List Schema} {u : Schema}
    (hdistinct : ∀ s ∈ schemas, s.names.Nodup) (h : unify schemas = .ok u) {f : Field}
    (hf : f ∈ u) : IsMerged schemas f := by
  constructor
  · have hnames : f.name ∈ firstNames schemas := names_unify h ▸ List.mem_map_of_mem hf
    obtain ⟨g, hg, hname⟩ := List.mem_map.1 (List.mem_eraseDups.1 hnames)
    obtain ⟨s, hs, hmem⟩ := List.mem_flatten.1 hg
    have hs : s ∈ schemas := (List.mergeSort_perm _ _).mem_iff.1 hs
    obtain ⟨f', hf', htype⟩ := typeOf_unify h hs hmem
    rw [hname, field?, find?_of_nodup (nodup_names_unify h) hf] at hf'
    cases hf'
    exact ⟨s, hs, g, hmem, hname, htype.symm⟩
  · have hcount : ∀ s ∈ schemas, s.names.count f.name ≤ 1 :=
      fun s hs => List.nodup_iff_count_le_one.1 (hdistinct s hs) _
    rw [nullable_iff_of_mem_unify h hf, countP_flatten_lt hcount, exists_mayLack]

theorem IsMerged.unique {schemas : List Schema} {u : Schema} (h : unify schemas = .ok u)
    {f g : Field} (hf : IsMerged schemas f) (hg : IsMerged schemas g) (hname : f.name = g.name) :
    f.bare = g.bare := by
  have huniform := exists_unify.1 ⟨u, h⟩
  obtain ⟨s, hs, f', hf', hname', htype'⟩ := hf.typed
  obtain ⟨t, ht, g', hg', hname'', htype''⟩ := hg.typed
  have htype : f'.type = g'.type := huniform f' (List.mem_flatten.2 ⟨s, hs, hf'⟩) g'
    (List.mem_flatten.2 ⟨t, ht, hg'⟩) (hname'.trans (hname.trans hname''.symm))
  have hnull : f.nullable = g.nullable := by rw [Bool.eq_iff_iff, hf.nullable, hg.nullable, hname]
  exact Field.bare_eq_iff.2 ⟨hname, htype'.symm.trans (htype.trans htype''), hnull⟩

theorem isMerged_bare {schemas : List Schema} {f : Field} :
    IsMerged schemas f.bare ↔ IsMerged schemas f :=
  ⟨fun h => ⟨h.typed, h.nullable⟩, fun h => ⟨h.typed, h.nullable⟩⟩

theorem mem_bare_unify {schemas : List Schema} {u : Schema}
    (hdistinct : ∀ s ∈ schemas, s.names.Nodup) (h : unify schemas = .ok u) {f : Field} :
    f ∈ u.bare ↔ f.bare = f ∧ IsMerged schemas f := by
  constructor
  · intro hf
    obtain ⟨g, hg, rfl⟩ := List.mem_map.1 hf
    exact ⟨rfl, isMerged_bare.2 (isMerged_of_mem hdistinct h hg)⟩
  · rintro ⟨hbare, hf⟩
    obtain ⟨s, hs, g, hg, hname, -⟩ := hf.typed
    obtain ⟨f', hf', -⟩ := typeOf_unify h hs hg
    have hmem : f' ∈ u := List.mem_of_find?_eq_some hf'
    have heq := (isMerged_of_mem hdistinct h hmem).unique h hf ((name_of_field? hf').trans hname)
    exact List.mem_map.2 ⟨f', hmem, heq.trans hbare⟩

theorem unify_eq_error {schemas : List Schema} {e : Failure} (h : unify schemas = .error e) :
    ∃ f ∈ schemas.flatten, ∃ g ∈ schemas.flatten,
      f.name = g.name ∧ f.type ≠ g.type ∧ e = .schema (.types f.name f.type g.type) := by
  have hperm : (canonical schemas).flatten.Perm schemas.flatten := (List.mergeSort_perm _ _).flatten
  unfold unify at h
  split at h
  · rename_i c hmeet
    cases h
    obtain ⟨f, hf, g, hg, hname, htype, rfl⟩ := conflict_of_meetAll hmeet
    exact ⟨f, hperm.mem_iff.1 hf, g, hperm.mem_iff.1 hg, hname, htype, rfl⟩
  · cases h

theorem mem_names_unify {schemas : List Schema} {u : Schema} (h : unify schemas = .ok u)
    {n : String} :
    n ∈ u.names ↔ ∃ s ∈ schemas, n ∈ s.names := by
  have hperm : (canonical schemas).flatten.Perm schemas.flatten := (List.mergeSort_perm _ _).flatten
  rw [names_unify h, firstNames, List.mem_eraseDups, names, (hperm.map _).mem_iff]
  simp only [names, List.mem_map, List.mem_flatten]
  constructor
  · rintro ⟨f, ⟨s, hs, hf⟩, hname⟩
    exact ⟨s, hs, f, hf, hname⟩
  · rintro ⟨s, hs, f, hf, hname⟩
    exact ⟨f, ⟨s, hs, hf⟩, hname⟩

/--
Schemas cannot be unified just if a name has two types among them, and such a name and its types are
told. Else each name has one field, under its type, which is nullable where it is so in a schema or
is met less often than there are schemas. So a field is nullable only where a schema may lack it;
and where a schema may lack it, it is nullable unless a schema has it twice, which counts as if two
schemas had it.
-/
theorem unify_merges (schemas : List Schema) :
    (∀ e, unify schemas = .error e → ∃ f ∈ schemas.flatten, ∃ g ∈ schemas.flatten,
      f.name = g.name ∧ f.type ≠ g.type ∧ e = .schema (.types f.name f.type g.type)) ∧
    ((∃ e, unify schemas = .error e) ↔
      ∃ f ∈ schemas.flatten, ∃ g ∈ schemas.flatten, f.name = g.name ∧ f.type ≠ g.type) ∧
    ∀ u, unify schemas = .ok u → u.names.Nodup ∧ (∀ n, n ∈ u.names ↔ ∃ s ∈ schemas, n ∈ s.names) ∧
      ∀ f ∈ u, (∀ s ∈ schemas, ∀ g ∈ s, g.name = f.name → g.type = f.type) ∧
        (f.nullable = true ↔ (∃ s ∈ schemas, ∃ g ∈ s, g.name = f.name ∧ g.nullable = true) ∨
          schemas.flatten.countP (·.name = f.name) < schemas.length) ∧
        (f.nullable = true → ∃ s ∈ schemas, s.MayLack f.name) ∧
        ((∀ s ∈ schemas, s.names.count f.name ≤ 1) → (∃ s ∈ schemas, s.MayLack f.name) →
          f.nullable = true) := by
  refine ⟨fun e => unify_eq_error, ⟨fun ⟨e, h⟩ => ?_, fun ⟨f, hf, g, hg, hname, htype⟩ => ?_⟩,
    fun u h => ?_⟩
  · obtain ⟨f, hf, g, hg, hname, htype, -⟩ := unify_eq_error h
    exact ⟨f, hf, g, hg, hname, htype⟩
  · cases hunify : unify schemas with
    | error e => exact ⟨e, rfl⟩
    | ok u => exact absurd (exists_unify.1 ⟨u, hunify⟩ f hf g hg hname) htype
  · refine ⟨nodup_names_unify h, fun n => mem_names_unify h, fun f hf => ?_⟩
    have hnull := nullable_iff_of_mem_unify h hf
    refine ⟨fun s hs g hg hname => ?_, hnull, fun hf' => ?_, fun hcount => ?_⟩
    · obtain ⟨f', hf', htype⟩ := typeOf_unify h hs hg
      rw [hname, field?, find?_of_nodup (nodup_names_unify h) hf] at hf'
      cases hf'
      exact htype.symm
    · exact exists_mayLack.2 ((hnull.1 hf').imp_right exists_not_mem_of_countP_lt)
    · rw [hnull, countP_flatten_lt hcount, exists_mayLack]
      exact id

def integers (nullable : Bool) (ns : List String) : Schema :=
  ns.map (⟨·, .int .int32, nullable, .empty⟩)

theorem canonical_of_pairwise {schemas : List Schema}
    (h : schemas.Pairwise fun s t => compareSchemas s t != .gt) :
    canonical schemas = schemas := List.mergeSort_of_pairwise h

theorem unify_merges_missing :
    let schemas := [integers false ["a"], integers false ["a", "b"]]
    let u := integers false ["a"] ++ integers true ["b"]
    unify schemas = .ok u ∧ ∀ f ∈ u, (∀ s ∈ schemas, s.names.count f.name ≤ 1) ∧
      (f.nullable = true ↔ ∃ s ∈ schemas, s.MayLack f.name) := by
  intro schemas u
  have hu : unify schemas = .ok u := by
    rw [unify, canonical_of_pairwise (by decide +kernel)]
    decide +kernel
  obtain ⟨-, -, hfields⟩ := (unify_merges schemas).2.2 u hu
  have hcount : ∀ f ∈ u, ∀ s ∈ schemas, s.names.count f.name ≤ 1 := by decide
  refine ⟨hu, fun f hf => ⟨hcount f hf, ?_⟩⟩
  obtain ⟨-, -, hlack, hnull⟩ := hfields f hf
  exact ⟨hlack, hnull (hcount f hf)⟩

/-- A field that one schema has twice is not nullable, although the other schema lacks it. -/
theorem unify_merges_doubled :
    unify [[], integers false ["x", "x"]] = .ok (integers false ["x"]) ∧ Schema.MayLack [] "x" := by
  refine ⟨?_, .inl List.not_mem_nil⟩
  rw [unify, canonical_of_pairwise (by decide +kernel)]
  decide +kernel

section Grouping

variable {xs ys : List Schema} {u : Schema}

theorem mayLack_unify (hne : xs ≠ []) (hdistinct : ∀ s ∈ xs, s.names.Nodup) (h : unify xs = .ok u)
    {n : String} :
    u.MayLack n ↔ ∃ s ∈ xs, s.MayLack n := by
  by_cases hn : n ∈ u.names
  · obtain ⟨f, hf, rfl⟩ := List.mem_map.1 hn
    have hmerged := isMerged_of_mem hdistinct h hf
    rw [← hmerged.nullable]
    constructor
    · rintro (hlack | ⟨g, hg, hname, hnull⟩)
      · exact absurd hn hlack
      · have hsame := hmerged.unique h (isMerged_of_mem hdistinct h hg) hname.symm
        exact (Field.bare_eq_iff.1 hsame).2.2.trans hnull
    · intro hnull
      exact .inr ⟨f, hf, rfl, hnull⟩
  · refine iff_of_true (.inl hn) ?_
    obtain ⟨s, rest, rfl⟩ := List.exists_cons_of_ne_nil hne
    refine ⟨s, List.mem_cons_self, .inl fun hs => hn ?_⟩
    obtain ⟨g, hg, rfl⟩ := List.mem_map.1 hs
    obtain ⟨f, hf, -⟩ := typeOf_unify h List.mem_cons_self hg
    exact mem_names_of_field? hf

theorem typed_unify (hdistinct : ∀ s ∈ xs, s.names.Nodup) (h : unify xs = .ok u) {n : String}
    {t : DataType} :
    (∃ g ∈ u, g.name = n ∧ g.type = t) ↔ ∃ s ∈ xs, ∃ g ∈ s, g.name = n ∧ g.type = t := by
  constructor
  · rintro ⟨g, hg, rfl, rfl⟩
    exact (isMerged_of_mem hdistinct h hg).typed
  · rintro ⟨s, hs, g, hg, rfl, rfl⟩
    obtain ⟨f, hf, htype⟩ := typeOf_unify h hs hg
    exact ⟨f, List.mem_of_find?_eq_some hf, name_of_field? hf, htype⟩

theorem isMerged_unify (hne : xs ≠ []) (hdistinct : ∀ s ∈ xs, s.names.Nodup) (h : unify xs = .ok u)
    {f : Field} :
    IsMerged (u :: ys) f ↔ IsMerged (xs ++ ys) f := by
  have hmem {P : Schema → Prop} (hP : P u ↔ ∃ s ∈ xs, P s) : (∃ s ∈ u :: ys, P s) ↔
      ∃ s ∈ xs ++ ys, P s := by
    simp only [List.mem_cons, List.mem_append, or_and_right, exists_or, exists_eq_left]
    exact or_congr_left hP
  have htyped :=
    hmem (P := fun s => ∃ g ∈ s, g.name = f.name ∧ g.type = f.type) (typed_unify hdistinct h)
  have hnull := hmem (P := (·.MayLack f.name)) (mayLack_unify hne hdistinct h)
  constructor
  · intro hf
    exact ⟨htyped.1 hf.typed, hf.nullable.trans hnull⟩
  · intro hf
    exact ⟨htyped.2 hf.typed, hf.nullable.trans hnull.symm⟩

theorem isUniform_unify (hdistinct : ∀ s ∈ xs, s.names.Nodup) (h : unify xs = .ok u) :
    IsUniform (u :: ys).flatten ↔ IsUniform (xs ++ ys).flatten := by
  have hmem {n : String} {t : DataType} : (∃ g ∈ (u :: ys).flatten, g.name = n ∧ g.type = t) ↔
      ∃ g ∈ (xs ++ ys).flatten, g.name = n ∧ g.type = t := by
    simp only [List.flatten_cons, List.flatten_append, List.mem_append, or_and_right, exists_or,
      typed_unify hdistinct h, List.mem_flatten]
    apply or_congr_left
    constructor
    · rintro ⟨s, hs, g, hg, hsame⟩
      exact ⟨g, ⟨s, hs, hg⟩, hsame⟩
    · rintro ⟨g, ⟨s, hs, hg⟩, hsame⟩
      exact ⟨s, hs, g, hg, hsame⟩
  have hmove {as bs : List Field} (hmem : ∀ n t, (∃ g ∈ bs, g.name = n ∧ g.type = t) →
      ∃ g ∈ as, g.name = n ∧ g.type = t) (hu : IsUniform as) : IsUniform bs := by
    intro f hf g hg hname
    obtain ⟨f', hf', hfname, hftype⟩ := hmem _ _ ⟨f, hf, rfl, rfl⟩
    obtain ⟨g', hg', hgname, hgtype⟩ := hmem _ _ ⟨g, hg, rfl, rfl⟩
    rw [← hftype, ← hgtype]
    exact hu f' hf' g' hg' (hfname.trans (hname.trans hgname.symm))
  exact ⟨hmove fun n t => hmem.2, hmove fun n t => hmem.1⟩

/-- Unifying some schemas before the others fails where unifying them all at once does, and has the
same fields (but for metadata) in the order in which their names are first met, which the schema
made of some can change. -/
theorem unify_unify (hne : xs ≠ []) (hdistinct : ∀ s ∈ xs ++ ys, s.names.Nodup) :
    ((∃ w, unify (xs ++ ys) = .ok w) ↔ ∃ u v, unify xs = .ok u ∧ unify (u :: ys) = .ok v) ∧
      ∀ u v w, unify xs = .ok u → unify (u :: ys) = .ok v → unify (xs ++ ys) = .ok w →
        v.bare.Perm w.bare ∧ v.names = firstNames (u :: ys) ∧ w.names = firstNames (xs ++ ys) ∧
          (v.bare = w.bare ↔ firstNames (u :: ys) = firstNames (xs ++ ys)) := by
  have hxs : ∀ s ∈ xs, s.names.Nodup := fun s hs => hdistinct s (List.mem_append_left ys hs)
  constructor
  · rw [exists_unify]
    constructor
    · intro h
      have hsome : IsUniform xs.flatten := by
        intro f hf g hg
        rw [List.flatten_append] at h
        exact h f (List.mem_append_left _ hf) g (List.mem_append_left _ hg)
      obtain ⟨u, hu⟩ := exists_unify.2 hsome
      obtain ⟨v, hv⟩ := exists_unify.2 ((isUniform_unify hxs hu).2 h)
      exact ⟨u, v, hu, hv⟩
    · rintro ⟨u, v, hu, hv⟩
      exact (isUniform_unify hxs hu).1 (exists_unify.1 ⟨v, hv⟩)
  · intro u v w hu hv hw
    have hdistinct' : ∀ s ∈ u :: ys, s.names.Nodup :=
      List.forall_mem_cons.2 ⟨nodup_names_unify hu,
        fun s hs => hdistinct s (List.mem_append_right xs hs)⟩
    have hfields (f : Field) : f ∈ v.bare ↔ f ∈ w.bare := by
      rw [mem_bare_unify hdistinct' hv, mem_bare_unify hdistinct hw, isMerged_unify hne hxs hu]
    have hnodup {u : Schema} (h : u.names.Nodup) : u.bare.names.Nodup := (names_bare u).symm ▸ h
    have hperm : v.bare.Perm w.bare :=
      (List.perm_ext_iff_of_nodup (hnodup (nodup_names_unify hv)).of_map
      (hnodup (nodup_names_unify hw)).of_map).2 hfields
    refine ⟨hperm, names_unify hv, names_unify hw, ?_⟩
    rw [← names_unify hv, ← names_unify hw, ← names_bare v, ← names_bare w]
    constructor
    · intro h
      rw [h]
    · intro hnames
      have hlength := congrArg List.length hnames
      simp only [names, List.length_map] at hlength
      refine List.ext_getElem hlength fun i hi hi' => ?_
      apply List.inj_on_of_nodup_map (hnodup (nodup_names_unify hw))
        ((hfields _).1 (List.getElem_mem hi))
        (List.getElem_mem hi')
      simpa [names] using List.getElem_of_eq hnames (by simpa [names] using hi)

theorem unify_unify_extended :
    let xs := [integers false ["a"], integers false ["a", "b"]]
    let ys := [integers false ["a", "c"]]
    let u := integers false ["a"] ++ integers true ["b"]
    let w := integers false ["a"] ++ integers true ["b", "c"]
    xs ≠ [] ∧ (∀ s ∈ xs ++ ys, s.names.Nodup) ∧ unify xs = .ok u ∧ unify (u :: ys) = .ok w ∧
      unify (xs ++ ys) = .ok w ∧ firstNames (u :: ys) = firstNames (xs ++ ys) := by
  intro xs ys u w
  have hne : xs ≠ [] := List.cons_ne_nil _ _
  have hdistinct : ∀ s ∈ xs ++ ys, s.names.Nodup := by decide
  have hu : unify xs = .ok u := by
    rw [unify, canonical_of_pairwise (by decide +kernel)]
    decide +kernel
  have hv : unify (u :: ys) = .ok w := by
    rw [unify, canonical_of_pairwise (by decide +kernel)]
    decide +kernel
  have hw : unify (xs ++ ys) = .ok w := by
    rw [unify, canonical_of_pairwise (by decide +kernel)]
    decide +kernel
  obtain ⟨-, -, -, hsame⟩ := (unify_unify hne hdistinct).2 u w w hu hv hw
  exact ⟨hne, hdistinct, hu, hv, hw, hsame.1 rfl⟩

/-- Made of two schemas, one has its place before a schema that lies between the two. -/
theorem unify_unify_reordered :
    let xs := [integers true ["a"], integers true ["b"]]
    let ys := [integers true ["a", "c"]]
    xs ≠ [] ∧ (∀ s ∈ xs ++ ys, s.names.Nodup) ∧ unify xs = .ok (integers true ["a", "b"]) ∧
      unify (integers true ["a", "b"] :: ys) = .ok (integers true ["a", "b", "c"]) ∧
      unify (xs ++ ys) = .ok (integers true ["a", "c", "b"]) ∧
      integers true ["a", "b", "c"] ≠ integers true ["a", "c", "b"] := by
  have hfirst : compareSchemas (integers true ["a"]) (integers true ["b"]) = .lt := by
    decide +kernel
  have hbetween : compareSchemas (integers true ["b"]) (integers true ["a", "c"]) = .gt := by
    decide +kernel
  have hbehind : compareSchemas (integers true ["a"]) (integers true ["a", "c"]) = .lt := by
    decide +kernel
  have hcanonical : canonical [integers true ["a"], integers true ["b"], integers true ["a", "c"]] =
      [integers true ["a"], integers true ["a", "c"], integers true ["b"]] := by
    simp [canonical, List.mergeSort, List.MergeSort.Internal.splitInTwo, hfirst, hbetween, hbehind]
  refine ⟨List.cons_ne_nil _ _, by decide, ?_, ?_, ?_, by decide⟩
  · rw [unify, canonical_of_pairwise (by decide +kernel)]
    decide +kernel
  · rw [unify, canonical_of_pairwise (by decide +kernel)]
    decide +kernel
  · rw [unify, List.cons_append, List.cons_append, List.nil_append, hcanonical]
    decide +kernel

end Grouping

end Schema

end TableScan
