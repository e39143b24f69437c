import TableScan.Proofs.Numerals
import TableScan.Proofs.Partitions

namespace TableScan

def DataType.isSpelled : DataType → Bool
  | .scalar .boolean | .scalar (.int _) | .scalar .utf8 | .scalar .largeUtf8 => true
  | _ => false

theorem DataType.plain_of_isSpelled {t : DataType} (h : t.isSpelled = true) : t.plain = t := by
  cases t with
  | dictionary k t => cases h
  | _ => rfl

namespace Scalar

open Conversion

variable {s : String} {v : Scalar}

theorem parse_eq_ok (t : ScalarType) {f : String → Outcome t.Carrier}
    (hf : conversion .utf8 (.scalar t) = .ok f) :
    parse (.scalar t) s = .ok v ↔ ∃ a, f s = .ok a ∧ v = ⟨t, some a⟩ := by
  have hconvert : (ofText s).convert (.scalar t) = some <$> (f s).strict := by
    rw [convert, show conversion (ofText s).dataType (.scalar t) = .ok f from hf]
    rfl
  rw [parse, hconvert]
  cases f s with
  | ok a =>
    constructor
    · intro h
      cases h
      exact ⟨a, rfl, rfl⟩
    · rintro ⟨_, h, rfl⟩
      cases h
      rfl
  | lossy e | broken e =>
    constructor
    · intro h
      cases h
    · rintro ⟨_, h, -⟩
      cases h

theorem parse_utf8 (s : String) : parse .utf8 s = .ok ⟨.utf8, some s⟩ := rfl

theorem parse_largeUtf8 (s : String) : parse .largeUtf8 s = .ok ⟨.largeUtf8, some s⟩ := rfl

theorem parse_boolean_eq_ok : parse .boolean s = .ok v ↔
    ∃ b, parseBoolean s = .ok b ∧ v = .ofBool b :=
  parse_eq_ok .boolean rfl

theorem parse_int_eq_ok {t : IntType} : parse (.int t) s = .ok v ↔
    ∃ i, (Text.integer? s.toList).bind (Fixed.ofInt? t) = some i ∧ v = .ofFixed i := by
  rw [parse_eq_ok (.int t) (f := parseFixed t) rfl]
  refine exists_congr fun i => and_congr_left fun _ => ?_
  rw [parseFixed]
  cases (Text.integer? s.toList).bind (Fixed.ofInt? t) with
  | none => exact iff_of_false nofun nofun
  | some j => rw [Outcome.ofOption, Outcome.ok.injEq, Option.some.injEq]

theorem text_ofFixed {t : IntType} (i : Fixed t) : (ofFixed i).text = toString i.val := by
  rw [ofFixed, text]

theorem text_ofBool (b : Bool) : (ofBool b).text = if b then "true" else "false" := by
  rw [ofBool, text]

theorem parseBoolean_text (b : Bool) : parseBoolean (ofBool b).text = .ok b := by
  have hword : ∀ b, Text.trim (String.ofList ((ofBool b).text.toList.map Char.toLower)) =
      (ofBool b).text := by
    decide +kernel
  rw [parseBoolean, hword]
  cases b with
  | true => exact if_pos (by decide +kernel)
  | false => exact (if_neg (by decide +kernel)).trans (if_pos (by decide +kernel))

theorem parse_text {t : DataType} (ht : t.isSpelled = true) (h : parse t s = .ok v) :
    parse t v.text = .ok v := by
  unfold DataType.isSpelled at ht
  split at ht
  · obtain ⟨b, -, rfl⟩ := parse_boolean_eq_ok.1 h
    exact parse_boolean_eq_ok.2 ⟨b, parseBoolean_text b, rfl⟩
  · obtain ⟨i, -, rfl⟩ := parse_int_eq_ok.1 h
    refine parse_int_eq_ok.2 ⟨i, ?_, rfl⟩
    rw [text_ofFixed, Text.integer?_toString, Option.bind_some, Fixed.ofInt?_val]
  · cases (parse_utf8 s).symm.trans h
    exact parse_utf8 s
  · cases (parse_largeUtf8 s).symm.trans h
    exact parse_largeUtf8 s
  · cases ht

theorem isNullValue_text {t : DataType} (ht : t.isSpelled = true) (h : parse t s = .ok v)
    (hs : Hive.isNullValue s = false) : Hive.isNullValue v.text = false := by
  unfold DataType.isSpelled at ht
  split at ht
  · obtain ⟨b, -, rfl⟩ := parse_boolean_eq_ok.1 h
    rw [text_ofBool]
    cases b <;> decide +kernel
  · obtain ⟨i, -, rfl⟩ := parse_int_eq_ok.1 h
    have hread := Text.integer?_toString i.val
    rw [text_ofFixed]
    refine Bool.eq_false_iff.2 fun hnull => ?_
    simp only [Hive.isNullValue, Bool.or_eq_true, decide_eq_true_eq] at hnull
    rcases hnull with hnull | hnull
    · rw [hnull] at hread
      cases hread
    · rw [hnull] at hread
      cases hread
  · cases (parse_utf8 s).symm.trans h
    exact hs
  · cases (parse_largeUtf8 s).symm.trans h
    exact hs
  · cases ht

end Scalar

end TableScan
