import TableScan.Proofs.Percent
import TableScan.Proofs.Spelling

namespace TableScan

open Text.Percent

namespace Path

theorem splitOnce?_append {c : Char} {cs : List Char} (h : c ∉ cs) (rest : List Char) :
    splitOnce? c (cs ++ c :: rest) = some (cs, rest) := by
  have hne : ∀ x ∈ cs, decide (x ≠ c) = true := fun x hx => decide_eq_true fun heq => h (heq ▸ hx)
  rw [splitOnce?, List.dropWhile_append_of_pos hne, List.takeWhile_append_of_pos hne,
    List.dropWhile_cons_of_neg (by simp), List.takeWhile_cons_of_neg (by simp), List.append_nil]

theorem directories_below {names : List String} {file : String} (h : ∀ name ∈ names, IsName name)
    (hfile : IsName file) :
    directories ("/".intercalate names ++ "/" ++ file) = names := by
  have hsingle : parts file = [file] := by
    have hparts : parts ("/".intercalate [file]) = [file] :=
      parts_intercalate (by simpa using hfile)
    simpa using hparts
  rw [directories, parts_below, parts_intercalate h, hsingle, List.dropLast_concat]

end Path

namespace Hive

open TableScan.Path

variable {s : Schema} {p q : Expr} {f : Field}

theorem equals_not_mem_encode (s : String) : '=' ∉ (encode s).toList :=
  not_mem_encode (by decide) (by decide)

theorem slash_not_mem_encode (s : String) : '/' ∉ (encode s).toList :=
  not_mem_encode (by decide) (by decide)

theorem keyValue_eq_ok {name key value : String} : keyValue name = .ok (key, value) ↔
    ∃ a b, splitOnce? '=' name.toList = some (a, b) ∧ decode? a = some key ∧ key ≠ "" ∧
      decode? b = some value := by
  rw [keyValue]
  cases splitOnce? '=' name.toList with
  | none => exact iff_of_false nofun nofun
  | some pair =>
    obtain ⟨a, b⟩ := pair
    dsimp only
    cases hkey : decode? a with
    | none => exact iff_of_false nofun (by simp [hkey])
    | some k =>
      by_cases hk : k = ""
      · subst hk
        refine iff_of_false nofun ?_
        rintro ⟨_, _, hsplit, hdecode, hne, -⟩
        cases hsplit
        exact hne (Option.some.inj (hdecode.symm.trans hkey))
      · dsimp only
        rw [if_neg hk]
        cases hvalue : decode? b with
        | none =>
          refine iff_of_false nofun ?_
          rintro ⟨_, _, hsplit, -, -, hdecode⟩
          cases hsplit
          cases hvalue.symm.trans hdecode
        | some v =>
          constructor
          · intro h
            cases h
            exact ⟨a, b, rfl, hkey, hk, hvalue⟩
          · rintro ⟨_, _, hsplit, hdecode, -, hdecode'⟩
            cases hsplit
            cases hkey.symm.trans hdecode
            cases hvalue.symm.trans hdecode'
            rfl

theorem keyValue_encode {key : String} (h : key ≠ "") (value : String) :
    keyValue (encode key ++ "=" ++ encode value) = .ok (key, value) := by
  have hlist : (encode key ++ "=" ++ encode value).toList =
      (encode key).toList ++ '=' :: (encode value).toList := by
    simp
  rw [keyValue_eq_ok, hlist]
  exact ⟨_, _, splitOnce?_append (equals_not_mem_encode key) _, decode?_encode (by decide) key, h,
    decode?_encode (by decide) value⟩

def spelling (v : Option Scalar) : String := v.elim nullValue Scalar.text

def directory (name : String) (v : Option Scalar) : String :=
  encode name ++ "=" ++ encode (spelling v)

theorem isName_directory (name : String) (v : Option Scalar) : IsName (directory name v) := by
  constructor
  · intro h
    have hlength := congrArg String.length h
    simp [directory] at hlength
  · simp [directory, slash_not_mem_encode]

/-- Whether a value of a field is read back from the directory that is named for it. -/
structure ReadsBack (f : Field) (v : Option Scalar) : Prop where
  name : f.name ≠ ""
  null : isNullValue (spelling v) = v.isNone
  value : ∀ w, v = some w → w.dataType = f.type ∧ w.isNull = false ∧
    Scalar.parse f.type w.text = .ok w

variable {v : Option Scalar}

theorem readsBack_of_mem_saidBy {path n : String} (hf : s.field? n = some f)
    (ht : f.type.isSpelled = true) (h : (n, v) ∈ saidBy s path) : ReadsBack f v := by
  obtain ⟨name, value, g, hkey, hg, hnull, hv⟩ := of_mem_saidBy h
  obtain rfl := Option.some.inj (hf.symm.trans hg)
  obtain rfl := Schema.name_of_field? hf
  obtain ⟨-, -, -, -, hne, -⟩ := keyValue_eq_ok.1 hkey
  refine ⟨hne, ?_, fun w hw => ?_⟩
  · cases v with
    | none => rfl
    | some w => exact Scalar.isNullValue_text ht (hv w rfl) hnull
  · have hread := Scalar.isRead_of_parse (hv w hw)
    refine ⟨?_, hread.valid, Scalar.parse_text ht (hv w hw)⟩
    rw [hread.typed, DataType.plain_of_isSpelled ht]

def written (nvs : List (String × Option Scalar)) : String :=
  "/".intercalate (nvs.map fun nv => directory nv.1 nv.2)

theorem reading_directory (hf : s.field? f.name = some f) (h : ReadsBack f v) :
    reading s (directory f.name v) = .ok (some (f.name, v)) := by
  rw [reading, directory, keyValue_encode h.name]
  simp only [hf, h.null]
  cases v with
  | none => rfl
  | some w =>
    obtain ⟨-, -, hparse⟩ := h.value w rfl
    simp [spelling, hparse]

theorem formatField_eq {bound : Option (Option Scalar)}
    (hbound : p.boundTo? f.name = bound.map (·.getD .null))
    (h : ∀ v, bound = some v → ReadsBack f v) :
    formatField p f = .ok (bound.map (directory f.name)) := by
  rw [formatField, hbound]
  cases bound with
  | none => rfl
  | some v =>
    cases v with
    | none =>
      have hnull : encode nullValue = nullValue := encode_of_all (by decide)
      show _ = Except.ok (some (encode f.name ++ "=" ++ encode nullValue))
      rw [hnull]
      rfl
    | some w =>
      obtain ⟨htype, hvalid, -⟩ := (h _ rfl).value w rfl
      simp [hvalid, Scalar.castTo, htype, directory, spelling]

def known (s : Schema) (pairs : List (String × Option Scalar)) : List (String × Option Scalar) :=
  s.names.filterMap fun n => (pairs.lookup n).map (n, ·)

variable {pairs : List (String × Option Scalar)}

theorem lookup_known (h : ∀ nv ∈ pairs, nv.1 ∈ s.names) (n : String) :
    (known s pairs).lookup n = pairs.lookup n := by
  have run (names : List String) : (names.filterMap fun n => (pairs.lookup n).map (n, ·)).lookup n =
      if n ∈ names then pairs.lookup n else none := by
    induction names with
    | nil => rfl
    | cons m names ih =>
      rw [List.filterMap_cons]
      by_cases hm : n = m
      · subst hm
        cases hn : pairs.lookup n with
        | none => simp [ih, hn]
        | some v => simp
      · have hne : (n == m) = false := beq_eq_false_iff_ne.2 hm
        cases pairs.lookup m with
        | none => simp [ih, hm]
        | some v => simp [ih, hm, List.lookup_cons, hne]
  rw [known, run]
  split
  · rfl
  · rename_i hn
    refine (List.lookup_eq_none_iff.2 fun nv hnv => ?_).symm
    simp only [ne_eq, bne_iff_ne]
    rintro rfl
    exact hn (h nv hnv)

theorem format_fixing (h : ∀ f ∈ s, ∀ v, pairs.lookup f.name = some v → ReadsBack f v) :
    format s (.all (pairs.map .fixing)) = .ok (written (known s pairs)) := by
  have hfields : s.filterMapM (formatField (.all (pairs.map .fixing))) =
      .ok ((known s pairs).map fun nv => directory nv.1 nv.2) := by
    refine filterMapM_eq_ok.2 ⟨s.map fun f => (pairs.lookup f.name).map (directory f.name), ?_, ?_⟩
    · rw [List.forall₂_map_right_iff, List.forall₂_same]
      exact fun f hf => formatField_eq Expr.boundTo?_fixing (h f hf)
    · simp [known, Schema.names, List.filterMap_map, List.map_filterMap, Function.comp_def]
  rw [format, hfields]
  rfl

theorem parse_written {nvs : List (String × Option Scalar)} {file : String} (hfile : IsName file)
    (h : ∀ nv ∈ nvs, reading s (directory nv.1 nv.2) = .ok (some nv)) (strict : Bool) :
    (Scheme.hive s strict).parse (written nvs ++ "/" ++ file) = .ok (.all (nvs.map .fixing)) := by
  have hnames : ∀ name ∈ nvs.map fun nv => directory nv.1 nv.2, IsName name := by
    intro name hname
    obtain ⟨nv, -, rfl⟩ := List.mem_map.1 hname
    exact isName_directory nv.1 nv.2
  have hsaid : nvs.filterMap (said? s ∘ fun nv => directory nv.1 nv.2) = nvs := by
    rw [List.filterMap_congr (g := some) fun nv hnv => ?_, List.filterMap_some]
    rw [Function.comp_apply, said?, h nv hnv]
    rfl
  rw [Scheme.parse_hive_eq_ok, saidBy, written, directories_below hnames hfile,
    List.filterMap_map, hsaid]
  refine ⟨fun _ name hname => ?_, rfl⟩
  obtain ⟨nv, hnv, rfl⟩ := List.mem_map.1 hname
  exact ⟨_, h nv hnv⟩

theorem parse_known {file : String} (hfile : IsName file) (hnames : s.names.Nodup)
    (h : ∀ f ∈ s, ∀ v, pairs.lookup f.name = some v → ReadsBack f v) (strict : Bool) :
    (Scheme.hive s strict).parse (written (known s pairs) ++ "/" ++ file) =
      .ok (.all ((known s pairs).map .fixing)) := by
  refine parse_written hfile (fun nv hnv => ?_) strict
  obtain ⟨n, hn, hlookup⟩ := List.mem_filterMap.1 hnv
  obtain ⟨f, hf, rfl⟩ := List.mem_map.1 hn
  obtain ⟨v, hv, rfl⟩ := Option.map_eq_some_iff.1 hlookup
  exact reading_directory (find?_of_nodup hnames hf) (h f hf v hv)

theorem format_congr (h : ∀ n, q.boundTo? n = p.boundTo? n) : format s q = format s p := by
  have hfields : formatField q = formatField p := funext fun f => by
    rw [formatField, formatField, h]
  rw [format, format, hfields]

/-- What a path says is written so that it is read again below any file, and then written the same.
-/
theorem format_parse {strict : Bool} {path : String} (hnames : s.names.Nodup)
    (htypes : ∀ f ∈ s, f.type.isSpelled = true) (h : (Scheme.hive s strict).parse path = .ok p) :
    ∃ t, format s p = .ok t ∧ ∀ strict' file, IsName file → ∃ q,
      (Scheme.hive s strict').parse (t ++ "/" ++ file) = .ok q ∧
      (∀ n, q.boundTo? n = p.boundTo? n) ∧
      format s q = .ok t := by
  obtain ⟨-, rfl⟩ := Scheme.parse_hive_eq_ok.1 h
  have hkeys : ∀ nv ∈ saidBy s path, nv.1 ∈ s.names := by
    intro nv hnv
    obtain ⟨-, -, f, -, hf, -⟩ := of_mem_saidBy hnv
    exact Schema.mem_names_of_field? hf
  have hreads : ∀ f ∈ s, ∀ v, (saidBy s path).lookup f.name = some v → ReadsBack f v := by
    intro f hf v hv
    exact readsBack_of_mem_saidBy (find?_of_nodup hnames hf) (htypes f hf) (mem_of_lookup hv)
  have hbound (n : String) : (Expr.all ((known s (saidBy s path)).map .fixing)).boundTo? n =
      (Expr.all ((saidBy s path).map .fixing)).boundTo? n := by
    rw [Expr.boundTo?_fixing, Expr.boundTo?_fixing, lookup_known hkeys]
  refine ⟨_, format_fixing hreads, fun strict' file hfile =>
    ⟨_, parse_known hfile hnames hreads strict', hbound, ?_⟩⟩
  rw [format_congr hbound, format_fixing hreads]

theorem format_parse_lenient :
    let s : Schema :=
  [⟨"z", .utf8, true, .empty⟩, ⟨"a=b", .largeUtf8, true, .empty⟩, ⟨"n", .int .int8, true, .empty⟩]
    let path := "n=%2B5/a%3Db=x%2Fy/junk/n=7/z=/file"
    let pairs : List (String × Option Scalar) :=
      [("n", some (.ofFixed (t := .int8) ⟨5, by decide, by decide⟩)),
        ("a=b", some ⟨.largeUtf8, some "x/y"⟩),
        ("n", some (.ofFixed (t := .int8) ⟨7, by decide, by decide⟩)), ("z", none)]
    let p := Expr.all (pairs.map .fixing)
    s.names.Nodup ∧ (∀ f ∈ s, f.type.isSpelled = true) ∧ (Scheme.hive s false).parse path = .ok p ∧
      ∃ t, format s p = .ok t ∧ ∀ strict' file, IsName file → ∃ q,
        (Scheme.hive s strict').parse (t ++ "/" ++ file) = .ok q ∧
        (∀ n, q.boundTo? n = p.boundTo? n) ∧
        format s q = .ok t := by
  intro s path pairs p
  have hnames : s.names.Nodup := by decide
  have htypes : ∀ f ∈ s, f.type.isSpelled = true := by decide
  have hpairs : saidBy s path = pairs := by decide +kernel
  have hparse : (Scheme.hive s false).parse path = .ok p :=
    Scheme.parse_hive_eq_ok.2 ⟨nofun, by rw [hpairs]⟩
  exact ⟨hnames, htypes, hparse, format_parse hnames htypes hparse⟩

end Hive

end TableScan
