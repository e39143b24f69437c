import TableScan.Proofs.Spelling

namespace TableScan

def respelled (t : DataType) (s : String) : String := if s = "-0" ∧ t ≠ .utf8 then "0" else s

theorem respelled_utf8 (s : String) : respelled .utf8 s = s := if_neg fun h => h.2 rfl

theorem exists_digits_of_isCanonicalInteger {s : String} (h : isCanonicalInteger s = true) :
    ∃ n, s.toList = Nat.toDigits 10 n ∨ s.toList = '-' :: Nat.toDigits 10 n := by
  have hdigits (cs : List Char) (h : (decide (cs ≠ []) && cs.all Text.isDigit &&
      (decide (cs = ['0']) || decide (cs.head? ≠ some '0'))) = true) : ∃ n,
        cs = Nat.toDigits 10 n := by
    simp only [Bool.and_eq_true, Bool.or_eq_true, decide_eq_true_eq, List.all_eq_true] at h
    exact ⟨_, (Text.toDigits_digitsValue h.1.1 h.1.2 h.2).symm⟩
  unfold isCanonicalInteger at h
  dsimp only at h
  split at h
  · rename_i cs hs
    obtain ⟨n, rfl⟩ := hdigits cs h
    exact ⟨n, .inr hs⟩
  · obtain ⟨n, hn⟩ := hdigits _ h
    exact ⟨n, .inl hn⟩

theorem toString_of_isCanonicalInteger {s : String} {i : Int} (h : isCanonicalInteger s = true)
    (hi : Text.integer? s.toList = some i) : toString i = if s = "-0" then "0" else s := by
  obtain ⟨n, hs⟩ := exists_digits_of_isCanonicalInteger h
  rw [← String.toList_inj, Text.toList_toString]
  rcases hs with hs | hs
  · rw [hs, Text.integer?_of_natural? (Text.natural?_toDigits n)] at hi
    cases hi
    rw [if_pos (by omega), Int.toNat_natCast, if_neg, hs]
    rintro rfl
    have hsign : '-' ∈ Nat.toDigits 10 n := by
      rw [← hs]
      decide
    exact absurd (Text.isDigit_of_mem_toDigits hsign) (by decide)
  · rw [hs, Text.integer?_neg (Text.natural?_toDigits n)] at hi
    cases hi
    by_cases hzero : n = 0
    · subst hzero
      rw [if_pos (String.toList_inj.1 hs)]
      rfl
    · rw [if_neg (by omega), Int.neg_neg, Int.toNat_natCast, if_neg, hs]
      rintro rfl
      have hdigits : Nat.toDigits 10 n = ['0'] := (List.cons.inj hs).2.symm
      exact hzero ((Text.digitsValue_toDigits n).symm.trans (congrArg Text.digitsValue hdigits))

theorem parse_int_of_fits {t : IntType} {s : String} (h : fitsInteger t s = true)
    (hs : isCanonicalInteger s = true) :
    ∃ v, Scalar.parse (.int t) s = .ok v ∧ v.text = respelled (.int t) s := by
  obtain ⟨i, hi⟩ := Option.isSome_iff_exists.1 h
  refine ⟨_, Scalar.parse_int_eq_ok.2 ⟨i, hi, rfl⟩, ?_⟩
  obtain ⟨j, hj, hij⟩ := Option.bind_eq_some_iff.1 hi
  rw [Scalar.text_ofFixed, Fixed.val_of_ofInt? hij, toString_of_isCanonicalInteger hs hj]
  simp [respelled]

theorem parse_inferType {values : List String} {s : String} (h : s ∈ values) :
    ∃ v, Scalar.parse (inferType values) s = .ok v ∧ v.text = respelled (inferType values) s := by
  have hutf8 : ∃ v, Scalar.parse .utf8 s = .ok v ∧ v.text = respelled .utf8 s :=
    ⟨_, Scalar.parse_utf8 s, (respelled_utf8 s).symm⟩
  unfold inferType
  split
  · exact hutf8
  · rename_i hcanonical
    have hs : isCanonicalInteger s = true := by
      simp only [Bool.or_eq_true, decide_eq_true_eq, Bool.not_eq_true', not_or, Bool.not_eq_false]
        at hcanonical
      exact List.all_eq_true.1 hcanonical.2 s h
    split
    · rename_i hfits
      exact parse_int_of_fits (List.all_eq_true.1 hfits s h) hs
    · split
      · rename_i hfits
        exact parse_int_of_fits (List.all_eq_true.1 hfits s h) hs
      · exact hutf8

def StandsFor (isNull : Bool) (s : String) (v : Option Scalar) : Prop :=
  if isNull then v = none else ∃ w, v = some w ∧ w.isNull = false ∧ w.text = respelled w.dataType s

theorem dataType_inferType {values : List String} {s : String} {v : Scalar}
    (h : Scalar.parse (inferType values) s = .ok v) : v.dataType = inferType values := by
  rw [(Scalar.isRead_of_parse h).typed]
  unfold inferType
  split
  · rfl
  · split
    · rfl
    · split <;> rfl

theorem standsFor_of_mem {values : List String} {s : String} (h : s ∈ values) :
    ∃ v, Scalar.parse (inferType values) s = .ok v ∧ StandsFor false s (some v) := by
  obtain ⟨v, hv, htext⟩ := parse_inferType h
  exact ⟨v, hv, v, rfl, (Scalar.isRead_of_parse hv).valid, by rw [dataType_inferType hv, htext]⟩

theorem lookup_forall₂ {α β : Type} {R : α → β → Prop} {as : List (String × α)}
    {bs : List (String × β)} (h : List.Forall₂ (fun a b => b.1 = a.1 ∧ R a.2 b.2) as bs)
    (n : String) :
    Option.Rel R (as.lookup n) (bs.lookup n) := by
  induction h with
  | nil => exact .none
  | @cons a b as bs hab _ ih =>
    obtain ⟨m, a⟩ := a
    obtain ⟨m', b⟩ := b
    obtain ⟨rfl, hr⟩ := hab
    simp only [List.lookup_cons]
    cases n == m' with
    | true => exact .some hr
    | false => exact ih

namespace SchemeDiscovery

variable {strict : Bool} {path : String} {ps : List (String × String)}

def given : SchemeDiscovery → String → List (String × String)
  | hive _, path => (Path.directories path).filterMap fun name => (Hive.keyValue name).toOption
  | positional names, path => names.zip (Path.directories path)

def isNull : SchemeDiscovery → String → Bool
  | hive _, s => Hive.isNullValue s
  | positional _, _ => false

theorem pairs_eq_ok : pairs strict path = .ok ps ↔
    (strict = true → ∀ name ∈ Path.directories path, ∃ pair, Hive.keyValue name = .ok pair) ∧
      (hive strict).given path = ps := by
  refine (filterMapM_eq_ok_of (P := fun name => strict = true →
    ∃ pair, Hive.keyValue name = .ok pair)
    (g := fun name => (Hive.keyValue name).toOption) fun name o => ?_).trans
      (and_congr_left fun _ => ⟨fun h hs name hn => h name hn hs, fun h name hn hs => h hs name hn⟩)
  cases Hive.keyValue name with
  | ok pair => simp [Except.toOption]
  | error fault => cases strict <;> simp [Except.toOption]

theorem field?_hiveSchema {all : List (String × String)} {key value : String}
    (h : (key, value) ∈ all) :
    (hiveSchema all).field? key = some ⟨key, inferType (valuesOf key all), true, .empty⟩ := by
  have hmem : key ∈ (all.map (·.1)).eraseDups := List.mem_eraseDups.2 (List.mem_map.2 ⟨_, h, rfl⟩)
  have hfound : (all.map (·.1)).eraseDups.find? (fun k => decide (k = key)) = some key := by
    obtain ⟨k, hk⟩ : ∃ k, (all.map (·.1)).eraseDups.find? (fun k => decide (k = key)) = some k :=
      Option.isSome_iff_exists.1 (List.find?_isSome.2 ⟨key, hmem, decide_eq_true rfl⟩)
    have hkey : k = key := by simpa using List.find?_some hk
    rwa [hkey] at hk
  rw [hiveSchema, Schema.field?, List.find?_map]
  exact congrArg (Option.map _) hfound

theorem reading_hiveSchema {all : List (String × String)} {name key value : String}
    (hname : Hive.keyValue name = .ok (key, value)) (h : (key, value) ∈ all) :
    ∃ v, Hive.reading (hiveSchema all) name = .ok (some (key, v)) ∧
      StandsFor (Hive.isNullValue value) value v := by
  rw [Hive.reading, hname]
  dsimp only
  rw [field?_hiveSchema h]
  dsimp only
  split
  · rename_i hnull
    exact ⟨none, rfl, by rw [StandsFor, if_pos hnull]⟩
  · rename_i hnull
    have hmem : value ∈ valuesOf key all := List.mem_filterMap.2 ⟨(key, value), h, by simp [hnull]⟩
    obtain ⟨v, hv, hstands⟩ := standsFor_of_mem hmem
    rw [hv]
    exact ⟨some v, rfl, by rwa [Bool.eq_false_iff.2 hnull]⟩

theorem forall₂_said? {all : List (String × String)} {names : List String}
    (h : ∀ kv ∈ names.filterMap (fun name => (Hive.keyValue name).toOption), kv ∈ all) :
    List.Forall₂ (fun kv nv => nv.1 = kv.1 ∧ StandsFor (Hive.isNullValue kv.2) kv.2 nv.2)
      (names.filterMap fun name => (Hive.keyValue name).toOption)
      (names.filterMap (Hive.said? (hiveSchema all))) := by
  induction names with
  | nil => exact .nil
  | cons name names ih =>
    rw [List.filterMap_cons] at h
    rw [List.filterMap_cons, List.filterMap_cons]
    cases hname : Hive.keyValue name with
    | error fault =>
      rw [hname] at h
      have hsaid : Hive.said? (hiveSchema all) name = none := by
        rw [Hive.said?, Hive.reading, hname]
        rfl
      rw [hsaid]
      exact ih h
    | ok kv =>
      obtain ⟨key, value⟩ := kv
      rw [hname] at h
      obtain ⟨hmem, h⟩ := List.forall_mem_cons.1 h
      obtain ⟨v, hv, hstands⟩ := reading_hiveSchema hname hmem
      have hsaid : Hive.said? (hiveSchema all) name = some (key, v) := by
        rw [Hive.said?, hv]
        rfl
      rw [hsaid]
      exact .cons ⟨rfl, hstands⟩ (ih h)

theorem names_positional {paths names : List String} {s : Schema}
    (h : (positional names).inspect paths = .ok s) :
    s.names = names := by
  cases h
  rw [Schema.names, List.map_map]
  exact List.zipIdx_map_fst 0 names

theorem exists_read_of_mem_zip {paths names : List String} {s : Schema}
    (hs : (positional names).inspect paths = .ok s) (hpath : path ∈ paths) {fn : Field × String}
    (h : fn ∈ s.zip (Path.directories path)) : ∃ nv : String × Option Scalar,
      (∃ v, Scalar.parse fn.1.type fn.2 = .ok v ∧ nv = (fn.1.name, some v)) ∧
      StandsFor false fn.2 nv.2 := by
  cases hs
  obtain ⟨i, hi⟩ := List.getElem?_of_mem h
  obtain ⟨hfield, hname⟩ := List.getElem?_zip_eq_some.1 hi
  rw [List.getElem?_map, List.getElem?_zipIdx] at hfield
  obtain ⟨⟨name, depth⟩, hdepth, hfield⟩ := Option.map_eq_some_iff.1 hfield
  obtain ⟨_, -, hdepth⟩ := Option.map_eq_some_iff.1 hdepth
  cases hdepth
  rw [← hfield]
  have hmem : fn.2 ∈ namesAt (0 + i) paths :=
    List.mem_filterMap.2 ⟨path, hpath, by rwa [Nat.zero_add]⟩
  obtain ⟨v, hv, hstands⟩ := standsFor_of_mem hmem
  exact ⟨_, ⟨v, hv, rfl⟩, hstands⟩

theorem parse_finish {d : SchemeDiscovery} {paths : List String} {s : Schema}
    (h : d.inspect paths = .ok s) (hpath : path ∈ paths) :
    ∃ nvs, (d.finish s).parse path = .ok (.all (nvs.map .fixing)) ∧
      List.Forall₂ (fun kv nv => nv.1 = kv.1 ∧ StandsFor (d.isNull kv.2) kv.2 nv.2)
      (d.given path) nvs := by
  cases d with
  | hive strict =>
    obtain ⟨pss, hpss, h⟩ := bind_eq_ok.1 h
    cases h
    obtain ⟨ps, hps, hpairs⟩ := forall₂_mem (mapM_eq_ok.1 hpss).flip hpath
    obtain ⟨hread, rfl⟩ := pairs_eq_ok.1 hpairs
    have hmem : ∀ kv ∈ (hive strict).given path, kv ∈ pss.flatten :=
      fun kv hkv => List.mem_flatten_of_mem hps hkv
    refine ⟨_, Scheme.parse_hive_eq_ok.2 ⟨fun hs name hname => ?_, rfl⟩, forall₂_said? hmem⟩
    obtain ⟨⟨key, value⟩, hkv⟩ := hread hs name hname
    obtain ⟨v, hv, -⟩ :=
      reading_hiveSchema hkv (hmem _ (List.mem_filterMap.2 ⟨name, hname, by rw [hkv]; rfl⟩))
    exact ⟨_, hv⟩
  | positional names =>
    obtain ⟨nvs, hnvs⟩ := exists_forall₂ fun fn => exists_read_of_mem_zip h hpath
    refine ⟨nvs, Scheme.parse_positional_eq_ok.2 ⟨nvs, hnvs.imp fun _ _ hnv => hnv.1, rfl⟩, ?_⟩
    rw [given, ← names_positional h, Schema.names, List.zip_map_left, List.forall₂_map_left_iff]
    refine hnvs.imp fun fn nv hnv => ?_
    obtain ⟨⟨v, hv, rfl⟩, hstands⟩ := hnv
    exact ⟨rfl, hstands⟩

/-- What is known behind the directories of a path is what the texts that they give to names stand
for. The first text of a name counts. -/
theorem boundTo?_finish {d : SchemeDiscovery} {paths : List String} {s : Schema}
    (h : d.inspect paths = .ok s) (hpath : path ∈ paths) :
    ∃ p, (d.finish s).parse path = .ok p ∧ ∀ name,
      match (d.given path).lookup name with
      | none => p.boundTo? name = none
      | some text =>
        if d.isNull text then p.boundTo? name = some .null
        else ∃ v, p.boundTo? name = some v ∧ v.isNull = false ∧
          v.text = respelled v.dataType text := by
  obtain ⟨nvs, hp, hnvs⟩ := parse_finish h hpath
  refine ⟨_, hp, fun name => ?_⟩
  rw [Expr.boundTo?_fixing]
  have hlookup := lookup_forall₂ (R := fun text => StandsFor (d.isNull text) text) hnvs name
  generalize (d.given path).lookup name = text?, nvs.lookup name = v? at hlookup
  cases hlookup with
  | none => rfl
  | @some text v hstands =>
    dsimp only
    unfold StandsFor at hstands
    split
    · rename_i hnull
      rw [if_pos hnull] at hstands
      rw [hstands]
      rfl
    · rename_i hnull
      rw [if_neg hnull] at hstands
      obtain ⟨w, rfl, hvalid, htext⟩ := hstands
      exact ⟨w, rfl, hvalid, htext⟩

/-- Zeros before a number make all values of its key texts, malformed directories say nothing, and
the first of two values of a key counts. -/
theorem boundTo?_finish_lenient :
    let d := hive false
    let paths := ["k=01/m=5/a", "k=7/m=-12/junk/k=8/b", "k=/c"]
    let path := "k=7/m=-12/junk/k=8/b"
    let s : Schema := [⟨"k", .utf8, true, .empty⟩, ⟨"m", .int .int32, true, .empty⟩]
    d.inspect paths = .ok s ∧ path ∈ paths ∧ (d.given path).lookup "k" = some "7" ∧
      ∃ p, (d.finish s).parse path = .ok p ∧
        ∃ v, p.boundTo? "k" = some v ∧ v.isNull = false ∧ v.text = respelled v.dataType "7" := by
  intro d paths path s
  have hs : d.inspect paths = .ok s := by decide +kernel
  have hpath : path ∈ paths := by simp [path, paths]
  have hgiven : (d.given path).lookup "k" = some "7" := by decide +kernel
  obtain ⟨p, hp, hnames⟩ := boundTo?_finish hs hpath
  have hk := hnames "k"
  rw [hgiven] at hk
  exact ⟨hs, hpath, hgiven, p, hp, hk⟩

/-- A zero with a sign is read as an integer, which is written without the sign. -/
theorem boundTo?_finish_signed_zero :
    let d := hive false
    let s : Schema := [⟨"k", .int .int32, true, .empty⟩]
    d.inspect ["k=-0/a"] = .ok s ∧ (d.given "k=-0/a").lookup "k" = some "-0" ∧
      ∃ p v, (d.finish s).parse "k=-0/a" = .ok p ∧ p.boundTo? "k" = some v ∧ v.text = "0" := by
  intro d s
  have hs : d.inspect ["k=-0/a"] = .ok s := by decide +kernel
  have hgiven : (d.given "k=-0/a").lookup "k" = some "-0" := by decide +kernel
  have hsaid : Hive.saidBy s "k=-0/a" =
      [("k", some (.ofFixed (t := .int32) ⟨0, by decide, by decide⟩))] := by
    decide +kernel
  exact ⟨hs, hgiven, _, _, Scheme.parse_hive_eq_ok.2 ⟨nofun, by rw [hsaid]⟩, rfl, rfl⟩

end SchemeDiscovery

end TableScan
