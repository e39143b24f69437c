import TableScan.Partition.Discovery
import TableScan.Proofs.Bindings
import TableScan.Proofs.Satisfaction
import TableScan.Proofs.Statistics

namespace TableScan

open Value (ofScalar ofCell)

namespace Scalar

/-- Whether a value is one that a text may be read as. -/
structure IsRead (v : Scalar) (t : DataType) : Prop where
  typed : v.dataType = t.plain
  valid : v.isNull = false
  quiet : (ofScalar v).isQuiet

theorem of_scalar?_some {t : DataType} {a : t.Carrier} {v : Scalar}
    (h : t.scalar? (some a) = .ok v) :
    v.dataType = t.plain ∧ v.isNull = false := by
  induction t with
  | scalar t =>
    cases h
    exact ⟨rfl, rfl⟩
  | dictionary k t ih => exact ih h
  | _ => cases h

theorem isRead_of_parse {t : DataType} {s : String} {v : Scalar} (h : parse t s = .ok v) :
    v.IsRead t := by
  unfold parse at h
  split at h
  · cases h
  · rename_i cell hcell
    replace h := mapError_eq_ok.1 h
    obtain ⟨f, hf, hcell⟩ := bind_eq_ok.1 hcell
    obtain ⟨a, ha, hcell⟩ := bind_eq_ok.1 hcell
    cases hcell
    obtain ⟨typed, valid⟩ := of_scalar?_some h
    refine ⟨typed, valid, ?_⟩
    rw [Value.ofScalar_scalar? h]
    by_cases ht : t.plain = .float32
    · have hne : DataType.utf8 ≠ t := by
        rintro rfl
        cases ht
      have hcast : (Value.of .utf8 s).cast? t = some (ofCell t (some a)) :=
        congrArg (Option.map (ofCell t)) (Value.asCell?_of_strict hne hf ha)
      exact Value.isQuiet_cast? hcast rfl rfl
    · exact Value.isQuiet_ofCell_of_ne ht (some a)

end Scalar

namespace Expr

def fixing : String × Option Scalar → Expr
  | (n, some v) => compare .eq (field n) (lit v)
  | (n, none) => not (isValid (field n))

variable {pairs : List (String × Option Scalar)} {n : String}

theorem conjuncts_fixing (pair : String × Option Scalar) :
    (fixing pair).conjuncts = [fixing pair] := by
  obtain ⟨n, _ | v⟩ := pair <;> rfl

theorem binding?_fixing (n : String) (v : Option Scalar) :
    (fixing (n, v)).binding? = some (n, v.getD .null) := by
  cases v <;> rfl

theorem conjuncts_all_fixing : (all (pairs.map fixing)).conjuncts =
    if pairs = [] then [true_] else pairs.map fixing := by
  rw [conjuncts_all]
  simp only [List.map_eq_nil_iff, List.flatMap_map, conjuncts_fixing, ← List.map_eq_flatMap]

theorem boundTo?_fixing :
    (all (pairs.map fixing)).boundTo? n = (pairs.lookup n).map (·.getD .null) := by
  have run (pairs : List (String × Option Scalar)) :
      ((pairs.map fixing).filterMap binding?).lookup n = (pairs.lookup n).map (·.getD .null) := by
    induction pairs with
    | nil => rfl
    | cons pair pairs ih =>
      obtain ⟨m, v⟩ := pair
      rw [List.map_cons, List.filterMap_cons, binding?_fixing]
      simp only [List.lookup_cons, ih]
      cases n == m <;> rfl
  rw [boundTo?, bindings, conjuncts_all_fixing]
  cases pairs with
  | nil => rfl
  | cons pair pairs => exact run (pair :: pairs)

theorem value_fixing (h : ∀ n v, (n, some v) ∈ pairs → v.isNull = false) :
    (Facts.ofGuarantee (all (pairs.map fixing)) n).value = (all (pairs.map fixing)).boundTo? n := by
  rw [Facts.value_ofGuarantee, boundTo?, bindings]
  refine lookup_firmBindings fun c hc => ?_
  have hmem := List.mem_of_find?_eq_some hc
  rw [conjuncts_all_fixing] at hmem
  split at hmem
  · rw [List.mem_singleton.1 hmem]
    rfl
  · obtain ⟨⟨m, v⟩, hm, rfl⟩ := List.mem_map.1 hmem
    cases v with
    | none => rfl
    | some v => exact h m v hm

theorem binds_fixing : (all (pairs.map fixing)).Binds := by
  intro c hc
  rw [conjuncts_all_fixing] at hc
  split at hc
  · exact .inl (List.mem_singleton.1 hc)
  · obtain ⟨⟨n, v⟩, -, rfl⟩ := List.mem_map.1 hc
    exact .inr (by rw [binding?_fixing]; rfl)

theorem isQuiet_fixing (h : ∀ n v, (n, some v) ∈ pairs → (ofScalar v).isQuiet) :
    (all (pairs.map fixing)).isQuiet := by
  refine isQuiet_of_conjuncts fun c hc => ?_
  rw [conjuncts_all_fixing] at hc
  split at hc
  · rw [List.mem_singleton.1 hc]
    rfl
  · obtain ⟨⟨n, v⟩, hm, rfl⟩ := List.mem_map.1 hc
    cases v with
    | none => rfl
    | some v => exact h n v hm

end Expr

namespace Scheme

/-- Whether directories are read in one of the usual ways: not at all, by depth, or by key. -/
def IsUsual : Scheme → Prop
  | dictionary _ _ | function _ _ => False
  | _ => True

end Scheme

/-- Values for fields of a schema. The first value of a field is of its type. -/
structure Schema.Reads (s : Schema) (pairs : List (String × Option Scalar)) : Prop where
  read : ∀ n v, (n, some v) ∈ pairs → ∃ t, v.IsRead t
  first : ∀ n v, pairs.lookup n = some (some v) → ∃ f, s.field? n = some f ∧ v.IsRead f.type

namespace Schema.Reads

variable {s s' : Schema} {pairs : List (String × Option Scalar)}

theorem of_mem (h : ∀ n v, (n, some v) ∈ pairs → ∃ f, s.field? n = some f ∧ v.IsRead f.type) :
    s.Reads pairs where
  read n v hm := (h n v hm).imp' Field.type fun _ hf => hf.2
  first n v hl := h n v (mem_of_lookup hl)

theorem of_zip {names : List String} (h : List.Forall₂ (fun (fn : Field × String) pair =>
    ∃ v, Scalar.parse fn.1.type fn.2 = .ok v ∧ pair = (fn.1.name, some v)) (s.zip names) pairs) :
    s.Reads pairs := by
  induction s generalizing names pairs with
  | nil =>
    cases h
    exact ⟨fun n v h => absurd h List.not_mem_nil, fun n v h => by cases h⟩
  | cons f s ih =>
    cases names with
    | nil =>
      cases h
      exact ⟨fun n v h => absurd h List.not_mem_nil, fun n v h => by cases h⟩
    | cons name names =>
      rw [List.zip_cons_cons, List.forall₂_cons_left_iff] at h
      obtain ⟨_, pairs, ⟨w, hw, rfl⟩, hpairs, rfl⟩ := h
      refine ⟨fun n v hm => ?_, fun n v hl => ?_⟩
      · rcases List.mem_cons.1 hm with hm | hm
        · cases hm
          exact ⟨_, Scalar.isRead_of_parse hw⟩
        · exact (ih hpairs).read n v hm
      · rw [Schema.field?, List.find?_cons]
        rw [List.lookup_cons] at hl
        by_cases hn : f.name = n
        · subst hn
          simp only [beq_self_eq_true, Option.some.injEq] at hl
          subst hl
          exact ⟨f, by simp, Scalar.isRead_of_parse hw⟩
        · have hne : (n == f.name) = false := by simpa using Ne.symm hn
          rw [hne] at hl
          simp only [hn, decide_false]
          exact (ih hpairs).first n v hl

end Schema.Reads

namespace Hive

variable {s : Schema} {strict : Bool} {name : String} {e : Expr}

/-- What a directory's name says under a schema: the value of a field, or nothing where the key is
of no field. -/
def reading (s : Schema) (name : String) : Except SegmentFault (Option (String × Option Scalar)) :=
  match keyValue name with
  | .error fault => .error fault
  | .ok (key, value) =>
    match s.field? key with
    | none => .ok none
    | some f =>
      if isNullValue value then .ok (some (key, none))
      else
        match Scalar.parse f.type value with
        | .ok v => .ok (some (key, some v))
        | .error e => .error (.value e.message)

def said? (s : Schema) (name : String) : Option (String × Option Scalar) :=
  (reading s name).toOption.join

def saidBy (s : Schema) (path : String) : List (String × Option Scalar) :=
  (Path.directories path).filterMap (said? s)

theorem segment_eq (s : Schema) (strict : Bool) (name : String) : segment s strict name =
    match reading s name with
    | .error fault => malformed strict name fault
    | .ok pair => .ok (pair.elim .true_ .fixing) := by
  rw [segment, reading]
  cases keyValue name with
  | error fault => rfl
  | ok pair =>
    obtain ⟨key, value⟩ := pair
    dsimp only
    cases s.field? key with
    | none => rfl
    | some f =>
      dsimp only
      split
      · rfl
      · cases Scalar.parse f.type value <;> rfl

theorem segment_eq_ok : segment s strict name = .ok e ↔
    (strict = true → ∃ pair, reading s name = .ok pair) ∧
    (said? s name).elim .true_ .fixing = e := by
  rw [segment_eq, said?]
  cases reading s name with
  | ok pair => simp [Except.toOption]
  | error fault => cases strict <;> simp [malformed, Except.toOption]

theorem said?_eq_some {n : String} {v : Option Scalar} (h : said? s name = some (n, v)) :
    ∃ value f, keyValue name = .ok (n, value) ∧ s.field? n = some f ∧
      isNullValue value = v.isNone ∧ ∀ w, v = some w → Scalar.parse f.type value = .ok w := by
  rw [said?, reading] at h
  cases hkey : keyValue name with
  | error fault =>
    rw [hkey] at h
    cases h
  | ok pair =>
    obtain ⟨key, value⟩ := pair
    rw [hkey] at h
    dsimp only at h
    cases hf : s.field? key with
    | none =>
      rw [hf] at h
      cases h
    | some f =>
      rw [hf] at h
      dsimp only at h
      split at h
      · rename_i hnull
        cases h
        exact ⟨value, f, rfl, hf, hnull, fun w hw => by cases hw⟩
      · rename_i hnull
        cases hv : Scalar.parse f.type value with
        | error e =>
          rw [hv] at h
          cases h
        | ok v =>
          rw [hv] at h
          cases h
          exact ⟨value, f, rfl, hf, Bool.eq_false_iff.2 hnull, fun w hw => by cases hw; exact hv⟩

theorem of_mem_saidBy {path n : String} {v : Option Scalar} (h : (n, v) ∈ saidBy s path) :
    ∃ name value f, keyValue name = .ok (n, value) ∧ s.field? n = some f ∧
      isNullValue value = v.isNone ∧ ∀ w, v = some w → Scalar.parse f.type value = .ok w := by
  obtain ⟨name, -, hsaid⟩ := List.mem_filterMap.1 h
  exact ⟨name, said?_eq_some hsaid⟩

end Hive

namespace Scheme

variable {scheme : Scheme} {s : Schema} {strict : Bool} {path : String} {p : Expr}

theorem not_isTrue_fixing (pair : String × Option Scalar) : (Expr.fixing pair).isTrue = false := by
  obtain ⟨n, _ | v⟩ := pair <;> rfl

theorem parse_eq_ok_iff : scheme.parse path = .ok p ↔
    ∃ es, List.Forall₂ (fun nd e => scheme.segment nd.1 nd.2 = .ok e)
    (Path.directories path).zipIdx es ∧
      .all (es.filter fun e => !e.isTrue) = p := by
  rw [parse, bind_eq_ok]
  refine exists_congr fun es => and_congr ?_ ⟨Except.ok.inj, congrArg Except.ok⟩
  rw [mapM_eq_ok]
  simp only [mapError_eq_ok]

theorem parse_hive_eq_ok : (hive s strict).parse path = .ok p ↔
    (strict = true → ∀ name ∈ Path.directories path, ∃ pair, Hive.reading s name = .ok pair) ∧
      .all ((Hive.saidBy s path).map .fixing) = p := by
  have hfilter (names : List String) :
      (names.map fun name => (Hive.said? s name).elim Expr.true_ .fixing).filter
      (fun e => !e.isTrue) =
        (names.filterMap (Hive.said? s)).map .fixing := by
    induction names with
    | nil => rfl
    | cons name names ih =>
      rw [List.map_cons, List.filter_cons, List.filterMap_cons, ih]
      cases Hive.said? s name with
      | none => rfl
      | some pair => simp [not_isTrue_fixing]
  have hsegments (es : List Expr) :
      List.Forall₂ (fun nd e => (hive s strict).segment nd.1 nd.2 = .ok e)
      (Path.directories path).zipIdx es ↔
        (strict = true → ∀ name ∈ Path.directories path, ∃ pair, Hive.reading s name = .ok pair) ∧
          (Path.directories path).map (fun name => (Hive.said? s name).elim Expr.true_ .fixing) =
          es := by
    have hnames :=
      List.forall₂_map_left_iff (f := Prod.fst) (l := (Path.directories path).zipIdx) (u := es)
      (R := fun name e => Hive.segment s strict name = .ok e)
    rw [List.zipIdx_map_fst] at hnames
    refine hnames.symm.trans ?_
    simp only [Hive.segment_eq_ok, forall₂_and_eq]
    exact and_congr_left fun _ =>
      ⟨fun h hs name hn => h name hn hs, fun h name hn hs => h hs name hn⟩
  rw [parse_eq_ok_iff]
  constructor
  · rintro ⟨es, hes, rfl⟩
    obtain ⟨hread, rfl⟩ := (hsegments es).1 hes
    exact ⟨hread, by rw [hfilter, Hive.saidBy]⟩
  · rintro ⟨hread, rfl⟩
    exact ⟨_, (hsegments _).2 ⟨hread, rfl⟩, by rw [hfilter, Hive.saidBy]⟩

theorem segment_positional_eq_ok (name : String) (k : Nat) {e : Expr} :
    (positional s).segment name k = .ok e ↔
    match s[k]? with
    | none => .true_ = e
    | some f => ∃ v, Scalar.parse f.type name = .ok v ∧ .fixing (f.name, some v) = e := by
  rw [segment]
  cases s[k]? with
  | none => exact ⟨Except.ok.inj, congrArg Except.ok⟩
  | some f =>
    rw [bind_eq_ok]
    exact exists_congr fun v => and_congr_right fun _ => ⟨Except.ok.inj, congrArg Except.ok⟩

theorem parse_positional_eq_ok : (positional s).parse path = .ok p ↔
    ∃ pairs, List.Forall₂ (fun (fn : Field × String) pair =>
        ∃ v, Scalar.parse fn.1.type fn.2 = .ok v ∧ pair = (fn.1.name, some v))
        (s.zip (Path.directories path)) pairs ∧
      .all (pairs.map .fixing) = p := by
  have run (names : List String) (k : Nat) (cs : List Expr) :
      (∃ es, List.Forall₂ (fun nd e => (positional s).segment nd.1 nd.2 = .ok e)
        (names.zipIdx k) es ∧
          es.filter (fun e => !e.isTrue) = cs) ↔
        ∃ pairs, List.Forall₂ (fun (fn : Field × String) pair =>
            ∃ v, Scalar.parse fn.1.type fn.2 = .ok v ∧ pair = (fn.1.name, some v))
              ((s.drop k).zip names) pairs ∧
          pairs.map .fixing = cs := by
    induction names generalizing k cs with
    | nil => simp
    | cons name names ih =>
      rw [List.zipIdx_cons]
      simp only [List.forall₂_cons_left_iff, segment_positional_eq_ok name k]
      cases hf : s[k]? with
      | none =>
        have hk : s.length ≤ k := List.getElem?_eq_none_iff.1 hf
        have hnext := ih (k + 1) cs
        rw [List.drop_eq_nil_of_le (by omega), List.zip_nil_left] at hnext
        rw [List.drop_eq_nil_of_le hk, List.zip_nil_left, ← hnext]
        constructor
        · rintro ⟨_, ⟨_, es, rfl, hes, rfl⟩, hcs⟩
          exact ⟨es, hes, hcs⟩
        · rintro ⟨es, hes, hcs⟩
          exact ⟨_, ⟨_, es, rfl, hes, rfl⟩, hcs⟩
      | some f =>
        obtain ⟨hk, rfl⟩ := List.getElem?_eq_some_iff.1 hf
        rw [List.drop_eq_getElem_cons hk, List.zip_cons_cons]
        simp only [List.forall₂_cons_left_iff]
        constructor
        · rintro ⟨_, ⟨_, es, ⟨v, hv, rfl⟩, hes, rfl⟩, rfl⟩
          obtain ⟨pairs, hpairs, hcs⟩ := (ih (k + 1) _).1 ⟨es, hes, rfl⟩
          exact ⟨_, ⟨_, pairs, ⟨v, hv, rfl⟩, hpairs, rfl⟩, by rw [List.map_cons, hcs]; rfl⟩
        · rintro ⟨_, ⟨_, pairs, ⟨v, hv, rfl⟩, hpairs, rfl⟩, rfl⟩
          obtain ⟨es, hes, hcs⟩ := (ih (k + 1) _).2 ⟨pairs, hpairs, rfl⟩
          exact ⟨_, ⟨_, es, ⟨v, hv, rfl⟩, hes, rfl⟩, by rw [List.map_cons, ← hcs]; rfl⟩
  have hrun := run (Path.directories path) 0
  rw [List.drop_zero] at hrun
  rw [parse_eq_ok_iff]
  constructor
  · rintro ⟨es, hes, rfl⟩
    obtain ⟨pairs, hpairs, hcs⟩ := (hrun _).1 ⟨es, hes, rfl⟩
    exact ⟨pairs, hpairs, by rw [hcs]⟩
  · rintro ⟨pairs, hpairs, rfl⟩
    obtain ⟨es, hes, hcs⟩ := (hrun _).2 ⟨pairs, hpairs, rfl⟩
    exact ⟨es, hes, by rw [hcs]⟩

theorem parse_eq_ok (hs : scheme.IsUsual) (h : scheme.parse path = .ok p) :
    ∃ pairs : List (String × Option Scalar), p = .all (pairs.map Expr.fixing) ∧
      scheme.schema.Reads pairs := by
  cases scheme with
  | none_ =>
    obtain ⟨es, hes, rfl⟩ := parse_eq_ok_iff.1 h
    refine ⟨[], ?_, .of_mem fun n v h => absurd h List.not_mem_nil⟩
    have htrue (e : Expr) (he : e ∈ es) : e.isTrue := by
      obtain ⟨name, -, h⟩ := forall₂_mem hes he
      cases h
      rfl
    rw [List.filter_eq_nil_iff.2 fun e he => by simp [htrue e he]]
    rfl
  | positional s =>
    obtain ⟨pairs, hpairs, rfl⟩ := parse_positional_eq_ok.1 h
    exact ⟨pairs, rfl, .of_zip hpairs⟩
  | hive s strict =>
    obtain ⟨-, rfl⟩ := parse_hive_eq_ok.1 h
    refine ⟨_, rfl, .of_mem fun n v hm => ?_⟩
    obtain ⟨-, value, f, -, hf, -, hv⟩ := Hive.of_mem_saidBy hm
    exact ⟨f, hf, Scalar.isRead_of_parse (hv v rfl)⟩
  | dictionary | function => exact hs.elim

end Scheme

namespace Partitioning

def IsUsual : Partitioning → Prop
  | scheme s => s.IsUsual
  | discovery _ => True

theorem isUsual_resolve {partitioning : Partitioning} {paths : List String} {scheme : Scheme}
    (hp : partitioning.IsUsual) (h : partitioning.resolve paths = .ok scheme) : scheme.IsUsual := by
  cases partitioning with
  | scheme s =>
    cases h
    exact hp
  | discovery d =>
    obtain ⟨s, -, h⟩ := bind_eq_ok.1 h
    cases h
    cases d <;> trivial

end Partitioning

/-- Whether an expression fixes fields, each to a value of its type in a schema or to null. -/
structure Expr.Fixes (p : Expr) (s : Schema) : Prop where
  binds : p.Binds
  quiet : p.isQuiet
  types : p.Types s
  value : ∀ n, (Facts.ofGuarantee p n).value = p.boundTo? n

namespace Schema.Reads

variable {s u : Schema} {pairs : List (String × Option Scalar)}

theorem isNull (h : s.Reads pairs) (n : String) (v : Scalar) (hm : (n, some v) ∈ pairs) :
    v.isNull = false := by
  obtain ⟨t, ht⟩ := h.read n v hm
  exact ht.valid

theorem fixes_of_types (h : s.Reads pairs)
    (hu : ∀ n v, (Expr.all (pairs.map Expr.fixing)).boundTo? n = some v →
    v.isNull = false → v.dataType = (u.typeOf n).plain) :
    (Expr.all (pairs.map Expr.fixing)).Fixes u := by
  have value (n : String) := Expr.value_fixing (n := n) h.isNull
  refine ⟨Expr.binds_fixing, ?_, fun n => ⟨(Expr.binds_fixing.facts n).1, fun v hv hn => ?_⟩, value⟩
  · refine Expr.isQuiet_fixing fun n v hm => ?_
    obtain ⟨t, ht⟩ := h.read n v hm
    exact ht.quiet
  · rw [value] at hv
    exact hu n v hv hn

theorem fixes (h : s.Reads pairs)
    (hu : ∀ n f, s.field? n = some f → ∃ g, u.field? n = some g ∧ g.type = f.type) :
    (Expr.all (pairs.map Expr.fixing)).Fixes u := by
  refine h.fixes_of_types fun n v hv hn => ?_
  rw [Expr.boundTo?_fixing] at hv
  obtain ⟨o, hl, rfl⟩ := Option.map_eq_some_iff.1 hv
  cases o with
  | none => cases hn
  | some w =>
    obtain ⟨f, hf, hw⟩ := h.first n w hl
    obtain ⟨g, hg, htype⟩ := hu n f hf
    rw [Schema.typeOf_of_field? hg, htype]
    exact hw.typed

end Schema.Reads

theorem Value.is_null {v : Scalar} (h : v.isNull = true) : Value.null.Is v := by
  rw [Value.Is, if_pos h]

theorem Value.is_ofScalar (v : Scalar) : (ofScalar v).Is v := by
  obtain ⟨t, value⟩ := v
  cases value with
  | none => exact Value.is_null rfl
  | some a =>
    have heq : t.compare a a = .eq := Std.ReflCmp.compare_self
    have hself := Statistics.compare?_of_type .eq a a
    rw [heq] at hself
    exact hself

namespace Expr.Fixes

variable {fr : Fragment} {s : Schema}

theorem true_ : Expr.true_.Fixes s := by
  have hreads : Schema.Reads [] [] := .of_mem fun n v h => absurd h List.not_mem_nil
  exact hreads.fixes fun n f hf => by cases hf

theorem gives (h : fr.partition.Fixes s) {n : String} {v : Scalar}
    (hv : (Facts.ofGuarantee fr.partition n).value = some v) : fr.Gives s n v := by
  intro f hf
  have hbound : fr.partition.boundTo? n = some v := (h.value n).symm.trans hv
  obtain rfl : f.name = n := Schema.name_of_field? hf
  refine ⟨.inr (by rw [hbound]; rfl), fun x hx ht => ?_⟩
  cases hn : v.isNull with
  | true =>
    cases (Fragment.cell_null hbound hn).symm.trans hx
    exact Value.is_null hn
  | false =>
    simp only [Fragment.cell, hbound, hn, Bool.false_eq_true, ↓reduceIte] at hx
    obtain ⟨w, hw, rfl⟩ := Option.map_eq_some_iff.1 hx
    -- a literal stands in the cell, so that the type of the field stands alone and is that of the
    -- value
    have htype : v.dataType = f.type := by
      have hplain := (h.types f.name).2 v hv hn
      rw [Schema.typeOf_of_field? hf, ← ht] at hplain
      exact hplain.trans ht
    rw [Scalar.castTo, if_pos htype] at hw
    cases hw
    exact Value.is_ofScalar v

theorem honours (h : fr.partition.Fixes s) (e : Expr) : fr.Honours s e [.true_, fr.partition] where
  binds := by simpa using ⟨Fixes.true_.binds (s := s), h.binds⟩
  quiet := by simpa using ⟨Fixes.true_.quiet (s := s), h.quiet⟩
  gives p hp n _ v hv := by
    simp only [List.mem_cons, List.not_mem_nil, or_false] at hp
    rcases hp with rfl | rfl
    · cases hv
    · exact h.gives hv
  carried := .of_types (by simpa using ⟨Fixes.true_.types (s := s), h.types⟩) e

end Expr.Fixes

end TableScan
