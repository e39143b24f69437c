import TableScan.Proofs.Leniency

namespace TableScan

namespace Expr

variable {pairs pairs' : List (String × Option Scalar)} {n : String}

def saidOf (n : String) (pairs : List (String × Option Scalar)) : List (String × Option Scalar) :=
  pairs.filter (·.1 = n)

theorem saidOf_perm (h : pairs.Perm pairs') (hnames : (pairs.map Prod.fst).Nodup) (n : String) :
    saidOf n pairs = saidOf n pairs' := by
  have hperm : (saidOf n pairs).Perm (saidOf n pairs') := h.filter _
  have hnodup : ((saidOf n pairs).map Prod.fst).Nodup := hnames.sublist (List.filter_sublist.map _)
  have hname : ∀ pair ∈ saidOf n pairs, pair.1 = n :=
    fun pair hpair => of_decide_eq_true (List.mem_filter.1 hpair).2
  cases hsaid : saidOf n pairs with
  | nil =>
    rw [hsaid] at hperm
    exact hperm.nil_eq
  | cons pair rest =>
    rw [hsaid] at hperm hnodup hname
    cases rest with
    | nil => exact (List.perm_singleton.1 hperm.symm).symm
    | cons pair' rest =>
      have hsame : pair.1 = pair'.1 :=
        (hname pair List.mem_cons_self).trans
          (hname pair' (List.mem_cons_of_mem _ List.mem_cons_self)).symm
      exact absurd (hsame ▸ List.mem_cons_self) (List.nodup_cons.1 hnodup).1

theorem saidOf_cons (n : String) (pair : String × Option Scalar)
    (pairs : List (String × Option Scalar)) :
    saidOf n (pair :: pairs) = if pair.1 = n then pair :: saidOf n pairs else saidOf n pairs := by
  simp [saidOf, List.filter_cons]

theorem lookup_saidOf (n : String) (pairs : List (String × Option Scalar)) :
    (saidOf n pairs).lookup n = pairs.lookup n := by
  induction pairs with
  | nil => rfl
  | cons pair pairs ih =>
    obtain ⟨m, v⟩ := pair
    rw [saidOf_cons]
    by_cases hn : m = n
    · subst hn
      simp
    · have hne : (n == m) = false := beq_false_of_ne (Ne.symm hn)
      simp [List.lookup_cons, hn, hne, ih]

theorem add_fixing_of_ne {pair : String × Option Scalar} (h : pair.1 ≠ n) (g : Facts) :
    Facts.add n g (fixing pair) = g := by
  obtain ⟨m, _ | v⟩ := pair <;> exact if_neg h

theorem foldl_saidOf (g : Facts) (n : String) (pairs : List (String × Option Scalar)) :
    ((saidOf n pairs).map fixing).foldl (Facts.add n) g =
      (pairs.map fixing).foldl (Facts.add n) g := by
  induction pairs generalizing g with
  | nil => rfl
  | cons pair pairs ih =>
    rw [saidOf_cons, List.map_cons, List.foldl_cons]
    by_cases hn : pair.1 = n
    · rw [if_pos hn, List.map_cons, List.foldl_cons, ih]
    · rw [if_neg hn, add_fixing_of_ne hn, ih]

theorem ofGuarantee_fixing (n : String) (pairs : List (String × Option Scalar)) :
    Facts.ofGuarantee (all (pairs.map fixing)) n =
      ((saidOf n pairs).map fixing).foldl (Facts.add n) .none_ := by
  rw [foldl_saidOf, Facts.ofGuarantee, conjuncts_all_fixing]
  cases pairs with
  | nil => rfl
  | cons pair pairs => rfl

theorem boundTo?_perm (h : pairs.Perm pairs') (hnames : (pairs.map Prod.fst).Nodup) (n : String) :
    (all (pairs.map fixing)).boundTo? n = (all (pairs'.map fixing)).boundTo? n := by
  rw [boundTo?_fixing, boundTo?_fixing, ← lookup_saidOf n pairs, saidOf_perm h hnames,
    lookup_saidOf]

theorem simplify_perm (h : pairs.Perm pairs') (hnames : (pairs.map Prod.fst).Nodup) (e : Expr) :
    e.simplify (all (pairs.map fixing)) = e.simplify (all (pairs'.map fixing)) := by
  have hfacts : Facts.ofGuarantee (all (pairs.map fixing)) =
      Facts.ofGuarantee (all (pairs'.map fixing)) :=
    funext fun n => by rw [ofGuarantee_fixing, ofGuarantee_fixing, saidOf_perm h hnames]
  rw [simplify, simplify, hfacts]

end Expr

namespace Scalar

variable {s : String} {v : Scalar}

theorem castTo_dictionary (k : IntType) {t : ScalarType}
    (h : (Conversion.packedAs? (.scalar t)).isSome) (a : t.Carrier) :
    castTo ⟨t, some a⟩ (.dictionary k (.scalar t)) = .ok ⟨t, some a⟩ := by
  -- days and milliseconds are packed as integers, which they fit
  have keeps {i : IntType} (x : Fixed i) : (Number.int x.val).toFixed i = .ok x := by
    rw [Number.toFixed, Option.bind_some, Fixed.ofInt?_val]
    rfl
  have hne : dataType ⟨t, some a⟩ ≠ .dictionary k (.scalar t) := by rintro ⟨⟩
  cases t with
  | null | boolean => cases h
  | int i => cases i <;> rfl
  | float32 | float64 | utf8 | largeUtf8 | binary => rfl
  | date32 =>
    have hconvert : convert ⟨.date32, some a⟩ (.dictionary k .date32) =
        some <$> (((Number.int (Fixed.val a)).toFixed .int32).bind .ok).strict := rfl
    rw [castTo, if_neg hne, hconvert, keeps (i := .int32) a]
    rfl
  | date64 =>
    have hconvert : convert ⟨.date64, some a⟩ (.dictionary k .date64) =
        some <$> (((Number.int (Fixed.val a)).toFixed .int64).bind .ok).strict := rfl
    rw [castTo, if_neg hne, hconvert, keeps (i := .int64) a]
    rfl

theorem isSome_packedAs?_of_parse {k : IntType} {t : DataType}
    (h : parse (.dictionary k t) s = .ok v) :
    (Conversion.packedAs? t).isSome := by
  unfold parse at h
  split at h
  · cases h
  · rename_i cell hcell
    obtain ⟨f, hf, -⟩ := bind_eq_ok.1 hcell
    cases hpacked : Conversion.packedAs? t with
    | some u => rfl
    | none =>
      have hinto : conversion? .utf8 (.dictionary k t) =
        Conversion.fromFlat? .utf8 (.dictionary k t) := rfl
      have hconversion : conversion? .utf8 (.dictionary k t) =
          (Conversion.fromFlat? .utf8 t).map fun _ => .error (.unpackable t) := by
        rw [hinto, Conversion.fromFlat?, hpacked]
      have hsome := conversion?_of_ok (show conversion .utf8 (.dictionary k t) = .ok f from hf)
      rw [hconversion] at hsome
      obtain ⟨_, _, h⟩ := Option.map_eq_some_iff.1 hsome
      cases h

theorem exists_castTo_of_parse {t : DataType} (h : parse t s = .ok v) :
    ∃ w, v.castTo t = .ok w := by
  have hread := isRead_of_parse h
  cases t with
  | scalar t => exact ⟨v, if_pos hread.typed⟩
  | dictionary k t =>
    have hpacked := isSome_packedAs?_of_parse h
    cases t with
    | scalar t =>
      obtain ⟨t', value⟩ := v
      cases hread.typed
      cases value with
      | none => cases hread.valid
      | some a => exact ⟨_, castTo_dictionary k hpacked a⟩
    | dictionary k' t => cases hpacked
    | _ =>
      unfold parse at h
      split at h <;> cases h
  | _ =>
    unfold parse at h
    split at h <;> cases h

end Scalar

namespace Hive

open TableScan.Path

variable {s : Schema} {strict : Bool} {path path' : String} {p : Expr}

def keys (s : Schema) (path : String) : List String :=
  ((directories path).filter fun name => ¬Malformed s name).filterMap fun name =>
    (keyValue name).toOption.map (·.1)

theorem filterMap_sublist_filterMap {α β : Type} {f g : α → Option β}
    (h : ∀ a b, f a = some b → g a = some b) (as : List α) :
    (as.filterMap f).Sublist (as.filterMap g) := by
  induction as with
  | nil => exact List.Sublist.slnil
  | cons a as ih =>
    rw [List.filterMap_cons, List.filterMap_cons]
    cases hf : f a with
    | some b =>
      rw [h a b hf]
      exact ih.cons_cons b
    | none =>
      cases g a with
      | none => exact ih
      | some b => exact ih.cons b

theorem names_saidBy_sublist (s : Schema) (path : String) :
    ((saidBy s path).map Prod.fst).Sublist (keys s path) := by
  rw [saidBy, List.map_filterMap, keys, List.filterMap_filter]
  refine filterMap_sublist_filterMap (fun name n h => ?_) (directories path)
  obtain ⟨⟨_, v⟩, hsaid, rfl⟩ := Option.map_eq_some_iff.1 h
  obtain ⟨value, f, hkey, -⟩ := said?_eq_some hsaid
  have hm : ¬Malformed s name := fun hm => by
    rw [said?_of_malformed hm] at hsaid
    cases hsaid
  simp [hm, hkey, Except.toOption]

theorem saidBy_perm (h : (directories path).Perm (directories path')) :
    (saidBy s path).Perm (saidBy s path') :=
  h.filterMap _

theorem exists_format (hnames : s.names.Nodup) (h : (Scheme.hive s strict).parse path = .ok p) :
    ∃ t, format s p = .ok t := by
  obtain ⟨-, rfl⟩ := Scheme.parse_hive_eq_ok.1 h
  have hfield : ∀ f ∈ s, ∃ o, formatField (.all ((saidBy s path).map .fixing)) f = .ok o := by
    intro f hf
    rw [formatField, Expr.boundTo?_fixing]
    cases hlookup : (saidBy s path).lookup f.name with
    | none => exact ⟨none, rfl⟩
    | some v =>
      cases v with
      | none => exact ⟨_, rfl⟩
      | some w =>
        obtain ⟨-, value, g, -, hg, -, hw⟩ := of_mem_saidBy (mem_of_lookup hlookup)
        have hfg : some f = some g := (find?_of_nodup hnames hf).symm.trans hg
        cases hfg
        have hread := hw w rfl
        obtain ⟨w', hw'⟩ := Scalar.exists_castTo_of_parse hread
        refine ⟨some (encode f.name ++ "=" ++ encode w'.text), ?_⟩
        simp [(Scalar.isRead_of_parse hread).valid, hw']
  obtain ⟨os, hos⟩ := exists_forall₂ hfield
  exact ⟨_, bind_eq_ok.2 ⟨_, filterMapM_eq_ok.2 ⟨os, hos, rfl⟩, rfl⟩⟩

/-- Where no key comes twice, the order of directories does not matter: both orders are read or
neither, the same values are fixed, they are written the same, and every expression is simplified to
the same. -/
theorem parse_reordered (hnames : s.names.Nodup) (hkeys : (keys s path).Nodup)
    (h : (directories path').Perm (directories path)) :
    ((∃ p, (Scheme.hive s strict).parse path = .ok p) ↔
      ∃ q, (Scheme.hive s strict).parse path' = .ok q) ∧
      ∀ p q, (Scheme.hive s strict).parse path = .ok p →
        (Scheme.hive s strict).parse path' = .ok q →
        (∀ n, p.boundTo? n = q.boundTo? n) ∧ (∃ t, format s p = .ok t ∧ format s q = .ok t) ∧
        ∀ e : Expr, e.simplify p = e.simplify q := by
  have hsaid : ((saidBy s path).map Prod.fst).Nodup := hkeys.sublist (names_saidBy_sublist s path)
  have hperm : (saidBy s path).Perm (saidBy s path') := saidBy_perm h.symm
  constructor
  · have hread : (∀ name ∈ directories path, ∃ pair, reading s name = .ok pair) ↔
        ∀ name ∈ directories path', ∃ pair, reading s name = .ok pair :=
      forall_congr' fun name => by rw [h.mem_iff]
    simp only [Scheme.parse_hive_eq_ok, exists_and_left, hread, exists_eq']
  · intro p q hp hq
    obtain ⟨t, ht⟩ := exists_format hnames hp
    obtain ⟨-, rfl⟩ := Scheme.parse_hive_eq_ok.1 hp
    obtain ⟨-, rfl⟩ := Scheme.parse_hive_eq_ok.1 hq
    have hbound (n : String) := Expr.boundTo?_perm hperm hsaid n
    exact ⟨hbound, ⟨t, ht, (format_congr fun n => (hbound n).symm).trans ht⟩,
      Expr.simplify_perm hperm hsaid⟩

theorem parse_reordered_lenient :
    let s : Schema := [⟨"z", .utf8, true, .empty⟩, ⟨"a=b", .dictionary .int8 .date32, true, .empty⟩,
      ⟨"n", .int .int8, true, .empty⟩]
    let path := "n=%2B5/junk/a%3Db=19000/n=x/z=/file"
    let path' := "z=/n=x//junk/n=%2B5/a%3Db=19000/other"
    let n : String × Option Scalar := ("n", some (.ofFixed (t := .int8) ⟨5, by decide, by decide⟩))
    let d : String × Option Scalar :=
      ("a=b", some ⟨.date32, some (⟨19000, by decide, by decide⟩ : Fixed .int32)⟩)
    let p := Expr.all ([n, d, ("z", none)].map .fixing)
    let q := Expr.all ([("z", none), n, d].map .fixing)
    s.names.Nodup ∧ (keys s path).Nodup ∧ (directories path').Perm (directories path) ∧
      (Scheme.hive s false).parse path = .ok p ∧ (Scheme.hive s false).parse path' = .ok q ∧
      (∀ n, p.boundTo? n = q.boundTo? n) ∧ (∃ t, format s p = .ok t ∧ format s q = .ok t) ∧
      ∀ e : Expr, e.simplify p = e.simplify q := by
  intro s path path' n d p q
  have hnames : s.names.Nodup := by decide
  have hkeys : (keys s path).Nodup := by decide +kernel
  have hperm : (directories path').Perm (directories path) := by decide +kernel
  have hsaid : saidBy s path = [n, d, ("z", none)] := by decide +kernel
  have hsaid' : saidBy s path' = [("z", none), n, d] := by decide +kernel
  have hp : (Scheme.hive s false).parse path = .ok p :=
    Scheme.parse_hive_eq_ok.2 ⟨nofun, by rw [hsaid]⟩
  have hq : (Scheme.hive s false).parse path' = .ok q :=
    Scheme.parse_hive_eq_ok.2 ⟨nofun, by rw [hsaid']⟩
  exact ⟨hnames, hkeys, hperm, hp, hq, (parse_reordered hnames hkeys hperm).2 p q hp hq⟩

end Hive

end TableScan
