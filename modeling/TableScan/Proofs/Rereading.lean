import TableScan.Proofs.Dates
import TableScan.Proofs.KeyedPaths
import TableScan.Proofs.ShortestDecimals

namespace TableScan

open Text.Percent

namespace Scalar

variable {t : ScalarType} {s : String} {v : Scalar}

def dateOf (i : Fixed .int64) : Date := Date.ofDays (Int.fdiv i.val 86400000)

/--
Whether the text of a value says all of it. Bytes are written as digits, points in time as their
date, and what is no number without its sign; and years outside of four digits are not read as
points in time.
-/
def isTold : Scalar → Bool
  | ⟨.binary, some b⟩ => b.isEmpty
  | ⟨.float32, some x⟩ => !(Floating.isNaN (f := .single) x && Floating.negative (f := .single) x)
  | ⟨.float64, some x⟩ => !(Floating.isNaN (f := .double) x && Floating.negative (f := .double) x)
  | ⟨.date64, some i⟩ => Fixed.val i % 86400000 = 0 ∧ 0 ≤ (dateOf i).year ∧ (dateOf i).year ≤ 9999
  | _ => true

theorem eq_some_of_parse (h : parse (.scalar t) s = .ok v) : ∃ a : t.Carrier, v = ⟨t, some a⟩ := by
  have hread := isRead_of_parse h
  obtain ⟨t', a⟩ := v
  obtain rfl : t' = t := DataType.scalar.inj hread.typed
  cases a with
  | none => cases hread.valid
  | some a => exact ⟨a, rfl⟩

theorem parse_eq_some_iff {g : String → Option t.Carrier} {e : String → CastFault} {a : t.Carrier}
    (hf : conversion .utf8 (.scalar t) = .ok fun s => .ofOption (e s) (g s)) :
    parse (.scalar t) s = .ok ⟨t, some a⟩ ↔ g s = some a := by
  rw [parse_eq_ok t hf]
  simp [Outcome.ofOption_eq_ok]

theorem parse_float32_iff {x : Floating .single} :
    parse .float32 s = .ok ⟨.float32, some x⟩ ↔ Floating.ofText? s = some x :=
  parse_eq_some_iff rfl

theorem parse_float64_iff {x : Floating .double} :
    parse .float64 s = .ok ⟨.float64, some x⟩ ↔ Floating.ofText? s = some x :=
  parse_eq_some_iff rfl

theorem parse_binary_iff {b : List UInt8} :
    parse .binary s = .ok ⟨.binary, some b⟩ ↔ Text.utf8 s = b := by
  rw [parse_eq_ok .binary (f := fun s => .ok (Text.utf8 s)) rfl]
  simp [eq_comm]

theorem parse_date32_iff {i : Fixed .int32} : parse .date32 s = .ok ⟨.date32, some i⟩ ↔
    ((Calendar.date? s).bind fun d => Fixed.ofInt? .int32 d.toDays) = some i :=
  parse_eq_some_iff (t := .date32)
    (g := fun s => (Calendar.date? s).bind fun d => Fixed.ofInt? .int32 d.toDays) rfl

theorem parse_date64_iff {i : Fixed .int64} : parse .date64 s = .ok ⟨.date64, some i⟩ ↔
    (Calendar.milliseconds? s).bind (Fixed.ofInt? .int64) = some i :=
  parse_eq_some_iff (t := .date64)
    (g := fun s => (Calendar.milliseconds? s).bind (Fixed.ofInt? .int64)) rfl

theorem ofText?_text_iff {f : FloatFormat} {x : Floating f} (h : Floating.ofText? s = some x) :
    Floating.ofText? (x.text .plain) = some x ↔ (!(x.isNaN && x.negative)) = true := by
  cases hx : x.isNaN with
  | false => simp [Floating.ofText?_text hx]
  | true =>
    have heq := Floating.eq_nan_of_ofText? h hx
    rw [Floating.ofText?_text_nan hx]
    constructor
    · intro hsome
      obtain rfl := Option.some.inj hsome
      rw [Floating.negative_nan]
      rfl
    · intro hpositive
      have hnegative : x.negative = false := by simpa using hpositive
      rw [heq, hnegative]

theorem utf8_hex_iff (bytes : List UInt8) : Text.utf8 (Text.hex bytes) = bytes ↔ bytes = [] := by
  constructor
  · intro h
    have hlength := Text.length_le_utf8 (Text.hex bytes)
    rw [h, Text.hex, String.toList_ofList, List.length_flatMap] at hlength
    simp at hlength
    exact List.eq_nil_of_length_eq_zero (by omega)
  · rintro rfl
    rfl

theorem date?_dateText {d : Date} {i : Fixed .int32} (hd : Calendar.date? s = some d)
    (hi : Fixed.ofInt? .int32 d.toDays = some i) :
    Calendar.date? (dateText i.val) = some d := by
  have hreached := Calendar.reached_of_date? hd
  have hself : Date.ofDays? i.val = some d := by
    rw [Fixed.val_of_ofInt? hi, Date.ofDays?, Date.ofDays_toDays hreached.toValid]
    exact if_pos hreached.in_range
  rw [dateText, hself]
  exact Calendar.date?_text hreached

theorem milliseconds?_dateText (i : Fixed .int64) :
    Calendar.milliseconds? (dateText (Int.fdiv i.val 86400000)) = some i.val ↔
      i.val % 86400000 = 0 ∧ 0 ≤ (dateOf i).year ∧ (dateOf i).year ≤ 9999 := by
  obtain ⟨hvalid, hdays⟩ := Date.toDays_ofDays (Int.fdiv i.val 86400000)
  have hdiv : Int.fdiv i.val 86400000 = i.val / 86400000 := Int.fdiv_eq_ediv_of_nonneg _ (by decide)
  rw [← dateOf] at hvalid hdays
  by_cases hrange : Date.inRange (dateOf i).year = true
  · have hdate : Date.ofDays? (Int.fdiv i.val 86400000) = some (dateOf i) := if_pos hrange
    have hread := Calendar.milliseconds?_text ⟨hvalid, hrange⟩
    rw [dateText, hdate, Option.map_some, Option.getD_some, hread, hdays, hdiv]
    split
    · rename_i hyear
      rw [Option.some.injEq, and_iff_left hyear]
      omega
    · rename_i hyear
      exact iff_of_false nofun fun h => hyear h.2
  · have hdate : Date.ofDays? (Int.fdiv i.val 86400000) = none := if_neg hrange
    have hnull : Calendar.milliseconds? "null" = none := by decide +kernel
    rw [dateText, hdate, Option.map_none, Option.getD_none, hnull]
    exact iff_of_false nofun fun h => hrange (Date.inRange_iff.2 (by omega))

theorem parse_text_eq_iff (h : parse (.scalar t) s = .ok v) :
    parse (.scalar t) v.text = .ok v ↔ v.isTold = true := by
  obtain ⟨a, rfl⟩ := eq_some_of_parse h
  cases t with
  | null => exact a.elim
  | boolean => exact iff_of_true (parse_text (t := .boolean) rfl h) rfl
  | int i => exact iff_of_true (parse_text (t := .int i) rfl h) rfl
  | utf8 => exact iff_of_true (parse_text (t := .utf8) rfl h) rfl
  | largeUtf8 => exact iff_of_true (parse_text (t := .largeUtf8) rfl h) rfl
  | float32 =>
    rw [parse_float32_iff, text]
    exact ofText?_text_iff (parse_float32_iff.1 h)
  | float64 =>
    rw [parse_float64_iff, text]
    exact ofText?_text_iff (parse_float64_iff.1 h)
  | binary =>
    rw [parse_binary_iff, text, utf8_hex_iff]
    exact List.isEmpty_iff.symm
  | date32 =>
    obtain ⟨d, hd, hi⟩ := Option.bind_eq_some_iff.1 (parse_date32_iff.1 h)
    refine iff_of_true ?_ rfl
    rw [parse_date32_iff, text, date?_dateText hd hi]
    exact hi
  | date64 =>
    rw [parse_date64_iff, text, Fixed.bind_ofInt?_eq_some, milliseconds?_dateText, isTold,
      decide_eq_true_iff]

theorem isNullValue_of_parse (hempty : (parse (.scalar t) "").isOk = false)
    (hword : (parse (.scalar t) Hive.nullValue).isOk = false) (h : parse (.scalar t) s = .ok v) :
    Hive.isNullValue s = false := by
  refine Bool.eq_false_iff.2 fun hnull => ?_
  simp only [Hive.isNullValue, Bool.or_eq_true, decide_eq_true_eq] at hnull
  rcases hnull with rfl | rfl
  · rw [h] at hempty
    cases hempty
  · rw [h] at hword
    cases hword

theorem isNullValue_text_of_isTold (h : parse (.scalar t) s = .ok v)
    (hs : Hive.isNullValue s = false) (htold : v.isTold = true) :
    Hive.isNullValue v.text = false := by
  have hread := (parse_text_eq_iff h).2 htold
  cases t with
  | null => exact absurd h nofun
  | boolean => exact isNullValue_text (t := .boolean) rfl h hs
  | int i => exact isNullValue_text (t := .int i) rfl h hs
  | utf8 => exact isNullValue_text (t := .utf8) rfl h hs
  | largeUtf8 => exact isNullValue_text (t := .largeUtf8) rfl h hs
  | binary =>
    obtain ⟨b, rfl⟩ := eq_some_of_parse h
    obtain rfl : b = [] := List.isEmpty_iff.1 htold
    have hlength := Text.length_le_utf8 s
    rw [parse_binary_iff.1 h] at hlength
    have hempty : s = "" :=
      String.toList_injective (List.eq_nil_of_length_eq_zero (Nat.le_zero.1 hlength))
    rw [hempty] at hs
    cases hs
  | float32 => exact isNullValue_of_parse rfl rfl hread
  | float64 => exact isNullValue_of_parse rfl rfl hread
  | date32 => exact isNullValue_of_parse rfl rfl hread
  | date64 => exact isNullValue_of_parse rfl rfl hread

end Scalar

namespace Hive

variable {fields : Schema} {f : Field} {v : Scalar}

theorem segment_directory {strict : Bool} (hf : fields.field? f.name = some f)
    (hname : f.name ≠ "") :
    segment fields strict (directory f.name (some v)) = .ok (.fixing (f.name, some v)) ↔
      isNullValue v.text = false ∧ Scalar.parse f.type v.text = .ok v := by
  rw [segment, directory, keyValue_encode hname]
  simp only [hf, spelling, Option.elim_some]
  by_cases hnull : isNullValue v.text = true
  · simp [hnull, Expr.fixing]
  · cases hparse : Scalar.parse f.type v.text with
    | ok w => simp [hnull, Expr.fixing]
    | error e => cases strict <;> simp [hnull, malformed, Expr.fixing, Expr.true_]

theorem format_fixed (hnames : fields.names.Nodup) (hf : f ∈ fields) (hv : v.isNull = false)
    (htype : v.dataType = f.type) :
    format fields (.fixing (f.name, some v)) = .ok (directory f.name (some v)) := by
  have hbound (n : String) : (Expr.fixing (f.name, some v)).boundTo? n = if n = f.name then some v
    else none := by
    show List.lookup n [(f.name, v)] = _
    rw [List.lookup_cons]
    split <;> simp_all
  have hfields : ∀ g ∈ fields, formatField (.fixing (f.name, some v)) g =
      .ok (if g.name = f.name then some (directory f.name (some v)) else none) := by
    intro g hg
    rw [formatField, hbound]
    by_cases hname : g.name = f.name
    · obtain rfl := List.inj_on_of_nodup_map hnames hg hf hname
      simp [hv, Scalar.castTo, htype, directory, spelling]
    · simp [hname]
  rw [format, filterMapM_of_forall hfields, filterMap_of_nodup hnames hf]
  simp

end Hive

namespace Scalar

open Hive

variable {t : ScalarType} {s : String} {v : Scalar}

/--
What is read from a text is read again from the value's text just if that says all of it; and just
then the directory that is written for the value, once it was read from one, says the same of the
key.
-/
theorem parse_text_iff (h : parse (.scalar t) s = .ok v) :
    (parse (.scalar t) v.text = .ok v ↔ v.isTold = true) ∧
      ∀ (fields : Schema) (f : Field) (name : String), fields.names.Nodup → f ∈ fields →
        f.type = .scalar t →
        keyValue name = .ok (f.name, s) → isNullValue s = false →
          ∃ written, Hive.format fields (.compare .eq (.field f.name) (.lit v)) = .ok written ∧
            ∀ strict,
            Hive.segment fields strict name = .ok (.compare .eq (.field f.name) (.lit v)) ∧
            (Hive.segment fields strict written = .ok (.compare .eq (.field f.name) (.lit v)) ↔
              v.isTold = true) := by
  refine ⟨parse_text_eq_iff h, fun fields f name hnames hf htype hkey hs => ?_⟩
  have hread := isRead_of_parse h
  have hfield : fields.field? f.name = some f := find?_of_nodup hnames hf
  obtain ⟨-, -, -, -, hne, -⟩ := keyValue_eq_ok.1 hkey
  refine ⟨_, format_fixed hnames hf hread.valid (hread.typed.trans htype.symm),
    fun strict => ⟨?_, ?_⟩⟩
  · rw [Hive.segment, hkey]
    simp [hfield, hs, htype, h]
  · refine (segment_directory hfield hne).trans ?_
    rw [htype, parse_text_eq_iff h]
    exact and_iff_right_of_imp (isNullValue_text_of_isTold h hs)

theorem parse_text_iff_exponent :
    let v : Scalar := ⟨.float64, some (Floating.round false 1 10000000 : Floating .double)⟩
    let fields : Schema := [⟨"k", .float64, true, .empty⟩]
    let e : Expr := .compare .eq (.field "k") (.lit v)
    parse .float64 "1e-7" = .ok v ∧ v.text = "0.0000001" ∧ parse .float64 "0.0000001" = .ok v ∧
      fields.names.Nodup ∧ keyValue "k=1e-7" = .ok ("k", "1e-7") ∧ isNullValue "1e-7" = false ∧
      ∃ written, Hive.format fields e = .ok written ∧ Hive.segment fields true written = .ok e := by
  intro v fields e
  have hparse : parse .float64 "1e-7" = .ok v := by decide +kernel
  have htext : v.text = "0.0000001" := by decide +kernel
  have hnames : fields.names.Nodup := by decide
  have hkey : keyValue "k=1e-7" = .ok ("k", "1e-7") := by decide +kernel
  have hnull : isNullValue "1e-7" = false := by decide
  have htold : v.isTold = true := by decide +kernel
  obtain ⟨hread, hwritten⟩ := parse_text_iff (t := .float64) hparse
  obtain ⟨written, hformat, hsegment⟩ :=
    hwritten fields ⟨"k", .float64, true, .empty⟩ "k=1e-7" hnames List.mem_cons_self rfl hkey hnull
  exact ⟨hparse, htext, htext ▸ hread.2 htold, hnames, hkey, hnull, written, hformat,
    (hsegment true).2.2 htold⟩

/-- The time of day is not written, and midnight is read. -/
theorem parse_text_time :
    let v : Scalar := ⟨.date64, some ⟨1704164645000, by decide, by decide⟩⟩
    parse .date64 "2024-01-02T03:04:05" = .ok v ∧ v.text = "2024-01-02" ∧
      parse .date64 v.text ≠ .ok v := by
  intro v
  exact ⟨by decide +kernel, by decide +kernel, by decide +kernel⟩

end Scalar

end TableScan
