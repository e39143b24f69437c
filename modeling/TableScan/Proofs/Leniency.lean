import TableScan.Proofs.KeyedPaths
import TableScan.Proofs.Utf8
import Mathlib.Data.List.TakeWhile

namespace TableScan

namespace Path

theorem not_mem_or_split (c : Char) (cs : List Char) :
    c ∉ cs ∨ ∃ before behind, c ∉ before ∧ cs = before ++ c :: behind := by
  induction cs with
  | nil => exact .inl List.not_mem_nil
  | cons x cs ih =>
    by_cases hx : c = x
    · exact .inr ⟨[], cs, List.not_mem_nil, by rw [hx]; rfl⟩
    · rcases ih with h | ⟨before, behind, h, rfl⟩
      · exact .inl (List.not_mem_cons_of_ne_of_not_mem hx h)
      · exact .inr ⟨x :: before, behind, List.not_mem_cons_of_ne_of_not_mem hx h, rfl⟩

theorem splitOnce?_eq_none {c : Char} {cs : List Char} (h : c ∉ cs) : splitOnce? c cs = none := by
  have hall : cs.dropWhile (· ≠ c) = [] :=
    List.dropWhile_eq_nil_iff.2 fun x hx => decide_eq_true fun he => h (he ▸ hx)
  rw [splitOnce?, hall]

def without (drop : String → Prop) [DecidablePred drop] (path : String) : String :=
  "/".intercalate ((directories path).filter (fun name => ¬drop name) ++
    (parts path).getLast?.toList)

theorem directories_without (drop : String → Prop) [DecidablePred drop] (path : String) :
    directories (without drop path) = (directories path).filter fun name => ¬drop name := by
  have hname : ∀ name ∈ (directories path).filter (fun name => ¬drop name) ++
      (parts path).getLast?.toList,
      IsName name := by
    intro name h
    rcases List.mem_append.1 h with h | h
    · exact isName_of_mem_parts (List.dropLast_subset _ (List.mem_of_mem_filter h))
    · exact isName_of_mem_parts (List.mem_of_getLast? (Option.mem_toList.1 h))
  rw [directories, without, parts_intercalate hname]
  cases h : (parts path).getLast? with
  | none =>
    rw [List.getLast?_eq_none_iff] at h
    rw [directories, h]
    rfl
  | some file => exact List.dropLast_concat

example : without (fun name => '=' ∉ name.toList) "/a/b=1//c/d=e=2/f" = "b=1/d=e=2/f" := by
  decide +kernel

end Path

namespace Hive

open TableScan.Path Text Text.Percent

variable {s : Schema} {name : String}

theorem keyValue_of_not_mem (h : '=' ∉ name.toList) : keyValue name = .error .notPair := by
  rw [keyValue, splitOnce?_eq_none h]
  rfl

theorem keyValue_of_split {key value : List Char} (h : name.toList = key ++ '=' :: value)
    (hkey : '=' ∉ key) :
    keyValue name =
      match decode? key with
      | none => .error .keyEncoding
      | some k =>
        if k = "" then .error .emptyKey
        else
          match decode? value with
          | none => .error .valueEncoding
          | some v => .ok (k, v) := by
  rw [keyValue, h, splitOnce?_append hkey]
  dsimp only
  cases decode? key with
  | none => rfl
  | some k =>
    dsimp only
    split
    · rfl
    · cases decode? value <;> rfl

/-- A name from which nothing can be read: it is no key and value, or its value is none of the
field. -/
inductive Malformed (s : Schema) (name : String) : Prop
  | notPair (h : '=' ∉ name.toList)
  | keyEncoding (key value : List Char) (h : name.toList = key ++ '=' :: value) (hkey : '=' ∉ key)
      (hbytes : ∀ k, utf8 k ≠ decodeBytes key)
  | emptyKey (value : List Char) (h : name.toList = '=' :: value)
  | valueEncoding (key value : List Char) (h : name.toList = key ++ '=' :: value) (hkey : '=' ∉ key)
      (hbytes : ∀ v, utf8 v ≠ decodeBytes value)
  | unreadable (key value : List Char) (f : Field) (v : String) (e : Failure)
      (h : name.toList = key ++ '=' :: value) (hkey : '=' ∉ key) (hf : s.field? f.name = some f)
      (hname : utf8 f.name = decodeBytes key) (hv : utf8 v = decodeBytes value) (hempty : v ≠ "")
      (hnull : v ≠ nullValue) (hparse : Scalar.parse f.type v = .error e)

theorem malformed_iff : Malformed s name ↔ ∃ fault, reading s name = .error fault := by
  constructor
  · rintro (h | ⟨key, value, h, hkey, hbytes⟩ | ⟨value, h⟩ | ⟨key, value, h, hkey, hbytes⟩ |
      ⟨key, value, f, v, e, h, hkey, hf, hname, hv, hempty, hnull, hparse⟩)
    · rw [reading, keyValue_of_not_mem h]
      exact ⟨_, rfl⟩
    · rw [reading, keyValue_of_split h hkey, decode?_eq_none.2 hbytes]
      exact ⟨_, rfl⟩
    · rw [reading, keyValue_of_split h List.not_mem_nil]
      exact ⟨_, rfl⟩
    · rw [reading, keyValue_of_split h hkey, decode?_eq_none.2 hbytes]
      cases decode? key with
      | none => exact ⟨_, rfl⟩
      | some k =>
        by_cases hk : k = ""
        · exact ⟨.emptyKey, by simp only [if_pos hk]⟩
        · exact ⟨.valueEncoding, by simp only [if_neg hk]⟩
    · rw [reading, keyValue_of_split h hkey, decode?_eq_some.2 hname, decode?_eq_some.2 hv]
      have hvalue : isNullValue v = false := by simp [isNullValue, hempty, hnull]
      by_cases hk : f.name = ""
      · exact ⟨.emptyKey, by simp only [if_pos hk]⟩
      · exact ⟨.value e.message, by simp [hk, hf, hvalue, hparse]⟩
  · rintro ⟨fault, hfault⟩
    rcases not_mem_or_split '=' name.toList with h | ⟨key, value, hkey, h⟩
    · exact .notPair h
    rw [reading, keyValue_of_split h hkey] at hfault
    cases hk : decode? key with
    | none => exact .keyEncoding key value h hkey (decode?_eq_none.1 hk)
    | some k =>
      by_cases hempty : k = ""
      · subst hempty
        obtain rfl := decodeBytes_eq_nil.1 (decode?_eq_some.1 hk).symm
        exact .emptyKey value h
      cases hv : decode? value with
      | none => exact .valueEncoding key value h hkey (decode?_eq_none.1 hv)
      | some v =>
        cases hf : s.field? k with
        | none => simp [hk, hempty, hv, hf] at hfault
        | some f =>
          obtain rfl := Schema.name_of_field? hf
          cases hnull : isNullValue v with
          | true => simp [hk, hempty, hv, hf, hnull] at hfault
          | false =>
            cases hparse : Scalar.parse f.type v with
            | ok w => simp [hk, hempty, hv, hf, hnull, hparse] at hfault
            | error e =>
              simp only [isNullValue, Bool.or_eq_false_iff, decide_eq_false_iff_not] at hnull
              exact .unreadable key value f v e h hkey hf (decode?_eq_some.1 hk)
                (decode?_eq_some.1 hv) hnull.1 hnull.2
                hparse

instance (s : Schema) : DecidablePred (Malformed s) := fun name =>
  match h : reading s name with
  | .ok _ => isFalse fun hm => by
    obtain ⟨_, hfault⟩ := malformed_iff.1 hm
    cases h.symm.trans hfault
  | .error fault => isTrue (malformed_iff.2 ⟨fault, h⟩)

theorem not_malformed_iff : ¬Malformed s name ↔ ∃ pair, reading s name = .ok pair := by
  rw [malformed_iff]
  cases reading s name with
  | ok pair => exact iff_of_true nofun ⟨pair, rfl⟩
  | error fault => exact iff_of_false (fun h => h ⟨fault, rfl⟩) (by simp)

theorem said?_of_malformed (h : Malformed s name) : said? s name = none := by
  obtain ⟨fault, hfault⟩ := malformed_iff.1 h
  rw [said?, hfault]
  rfl

theorem saidBy_of_filter {path path' : String}
    (h : directories path' = (directories path).filter fun name => ¬Malformed s name) :
    saidBy s path' = saidBy s path := by
  rw [saidBy, saidBy, h, List.filterMap_filter]
  refine List.filterMap_congr fun name _ => ?_
  by_cases hm : Malformed s name
  · simp [hm, said?_of_malformed hm]
  · simp [hm]

end Hive

namespace Scheme

open Hive TableScan.Path

variable {s : Schema} {path : String}

theorem parse_hive_strict (h : ∀ name ∈ directories path, ¬Malformed s name) :
    (hive s true).parse path = .ok (.all ((saidBy s path).map .fixing)) :=
  parse_hive_eq_ok.2 ⟨fun _ name hname => not_malformed_iff.1 (h name hname), rfl⟩

/-- A lenient scheme reads every path. A strict one reads those without malformed names, and reads
them as the lenient one does; and what the lenient one reads is what the strict one reads of the
path without the malformed names. -/
theorem parse_hive_lenient (s : Schema) (path : String) : ∃ e, (hive s false).parse path = .ok e ∧
    ((∃ e', (hive s true).parse path = .ok e') ↔ ∀ name ∈ directories path, ¬Malformed s name) ∧
    (∀ e', (hive s true).parse path = .ok e' → e' = e) ∧
    (∀ path', directories path' = (directories path).filter (fun name => ¬Malformed s name) →
      (hive s true).parse path' = .ok e) ∧
    (hive s true).parse (without (Malformed s) path) = .ok e := by
  have hdropped (path' : String) (h : directories path' = (directories path).filter fun name =>
    ¬Malformed s name) :
      (hive s true).parse path' = .ok (.all ((saidBy s path).map .fixing)) := by
    rw [← saidBy_of_filter h]
    refine parse_hive_strict fun name hname => ?_
    rw [h] at hname
    exact of_decide_eq_true (List.mem_filter.1 hname).2
  refine ⟨.all ((saidBy s path).map .fixing), parse_hive_eq_ok.2 ⟨nofun, rfl⟩, ?_, ?_, hdropped,
    hdropped _ (directories_without (Malformed s) path)⟩
  · refine ⟨fun ⟨e', h⟩ name hname => ?_, fun h => ⟨_, parse_hive_strict h⟩⟩
    exact not_malformed_iff.2 ((parse_hive_eq_ok.1 h).1 rfl name hname)
  · exact fun e' h => (parse_hive_eq_ok.1 h).2.symm

end Scheme

end TableScan
