import Mathlib.Data.List.Nodup
import TableScan.Proofs.KeyedPaths

namespace TableScan

inductive DataType.Form : Type
  | scalar : ScalarType → DataType.Form
  | dictionary | float16 | decimal | timestamp | time32 | time64 | duration | interval
  | largeBinary | utf8View
  deriving DecidableEq

namespace DataType

namespace Form

def text : Form → String
  | scalar t => t.text
  | dictionary => "Dictionary"
  | float16 => "Float16"
  | decimal => "Decimal128"
  | timestamp => "Timestamp"
  | time32 => "Time32"
  | time64 => "Time64"
  | duration => "Duration"
  | interval => "Interval"
  | largeBinary => "LargeBinary"
  | utf8View => "Utf8View"

def all : List Form :=
  ScalarType.all.map scalar ++
    [dictionary, float16, decimal, timestamp, time32, time64, duration, interval, largeBinary,
      utf8View]

theorem mem_all (w : Form) : w ∈ all := by
  cases w with
  | scalar t => exact List.mem_append_left _ (List.mem_map_of_mem (ScalarType.mem_all t))
  | _ => exact List.mem_append_right _ (by decide)

theorem text_injective {v w : Form} (h : v.text = w.text) : v = w :=
  List.inj_on_of_nodup_map (f := text) (by decide +kernel) (mem_all v) (mem_all w) h

theorem parenthesis_not_mem_text (w : Form) : '(' ∉ w.text.toList := by
  have hall : ∀ w ∈ all, '(' ∉ w.text.toList := by decide +kernel
  exact hall w (mem_all w)

end Form

def form : DataType → Form
  | scalar t => .scalar t
  | dictionary _ _ => .dictionary
  | float16 => .float16
  | decimal _ _ => .decimal
  | timestamp _ _ => .timestamp
  | time32 _ => .time32
  | time64 _ => .time64
  | duration _ => .duration
  | interval _ => .interval
  | largeBinary => .largeBinary
  | utf8View => .utf8View

def zoneText : Option String → String
  | none => "None"
  | some zone => "Some(\"" ++ zone ++ "\")"

def inner? : DataType → Option (List Char)
  | dictionary key value => some (key.text.toList ++ ',' :: ' ' :: value.text.toList)
  | decimal precision scale =>
    some ((toString precision).toList ++ ',' :: ' ' :: (toString scale).toList)
  | timestamp unit zone => some (unit.text.toList ++ ',' :: ' ' :: (zoneText zone).toList)
  | time32 unit | time64 unit | duration unit => some unit.text.toList
  | interval unit => some unit.text.toList
  | scalar _ | float16 | largeBinary | utf8View => none

def applied (word : List Char) : Option (List Char) → List Char
  | none => word
  | some inner => word ++ '(' :: (inner ++ [')'])

theorem toList_text (t : DataType) : t.text.toList = applied t.form.text.toList t.inner? := by
  cases t with
  | scalar | float16 | largeBinary | utf8View => rfl
  | timestamp unit zone => cases zone <;> simp [text, form, Form.text, applied, inner?, zoneText]
  | decimal precision scale =>
    have htext : text (decimal precision scale) =
      "Decimal128(" ++ toString precision ++ ", " ++ toString scale ++ ")" := rfl
    simp [htext, form, Form.text, applied, inner?]
  | dictionary | time32 | time64 | duration | interval =>
    simp [text, form, Form.text, applied, inner?]

theorem applied_injective {v w : List Char} {i j : Option (List Char)} (hv : '(' ∉ v) (hw : '(' ∉ w)
    (h : applied v i = applied w j) : v = w ∧ i = j := by
  cases i with
  | none =>
    cases j with
    | none => exact ⟨h, rfl⟩
    | some j => exact absurd (by rw [show v = applied v none from rfl, h]; simp [applied]) hv
  | some i =>
    cases j with
    | none => exact absurd (by rw [show w = applied w none from rfl, ← h]; simp [applied]) hw
    | some j =>
      have hsplit := congrArg (Path.splitOnce? '(') h
      rw [applied, applied, Path.splitOnce?_append hv, Path.splitOnce?_append hw] at hsplit
      obtain ⟨rfl, hij⟩ := Prod.mk.inj (Option.some.inj hsplit)
      exact ⟨rfl, congrArg some (List.append_cancel_right hij)⟩

theorem parts_injective {a b c d : List Char} (ha : ',' ∉ a) (hc : ',' ∉ c)
    (h : a ++ ',' :: ' ' :: b = c ++ ',' :: ' ' :: d) :
    a = c ∧ b = d := by
  have hsplit := congrArg (Path.splitOnce? ',') h
  rw [Path.splitOnce?_append ha, Path.splitOnce?_append hc] at hsplit
  obtain ⟨rfl, hbd⟩ := Prod.mk.inj (Option.some.inj hsplit)
  exact ⟨rfl, (List.cons.inj hbd).2⟩

theorem zoneText_injective {y z : Option String} (h : zoneText y = zoneText z) : y = z := by
  cases y with
  | none =>
    cases z with
    | none => rfl
    | some z => simpa [zoneText] using congrArg String.toList h
  | some y =>
    cases z with
    | none => simpa [zoneText] using congrArg String.toList h
    | some z => simpa [zoneText, ← String.toList_inj] using h

theorem comma_not_mem_toString (n : Nat) : ',' ∉ (toString n).toList := by
  intro h
  rw [Nat.toString_eq_repr, Nat.toList_repr] at h
  have hdigit : Text.isDigit ',' = true := Text.isDigit_of_mem_toDigits h
  cases hdigit

theorem toString_injective {m n : Nat} (h : (toString m).toList = (toString n).toList) : m = n := by
  simp only [Nat.toString_eq_repr, Nat.toList_repr] at h
  have hread := congrArg Text.natural? h
  rw [Text.natural?_toDigits, Text.natural?_toDigits] at hread
  exact Option.some.inj hread

theorem comma_not_mem_key (k : IntType) : ',' ∉ k.text.toList := by cases k <;> decide

theorem comma_not_mem_unit (u : TimeUnit) : ',' ∉ u.text.toList := by cases u <;> decide

theorem key_injective {k l : IntType} (h : k.text = l.text) : k = l :=
  List.inj_on_of_nodup_map (l := IntType.all) (by decide) (by cases k <;> decide) (by cases l <;>
    decide) h

theorem unit_injective {u v : TimeUnit} (h : u.text = v.text) : u = v :=
  List.inj_on_of_nodup_map (l := TimeUnit.all) (by decide) (by cases u <;> decide) (by cases v <;>
    decide) h

theorem intervalUnit_injective {u v : IntervalUnit} (h : u.text = v.text) : u = v :=
  List.inj_on_of_nodup_map (l := IntervalUnit.all) (by decide) (by cases u <;> decide)
    (by cases v <;> decide) h

theorem form_and_inner?_of_text {a b : DataType} (h : a.text = b.text) :
    a.form = b.form ∧ a.inner? = b.inner? := by
  have hlist := congrArg String.toList h
  rw [toList_text, toList_text] at hlist
  obtain ⟨hform, hinner⟩ :=
    applied_injective (Form.parenthesis_not_mem_text a.form)
      (Form.parenthesis_not_mem_text b.form) hlist
  exact ⟨Form.text_injective (String.toList_inj.1 hform), hinner⟩

theorem text_injective {a b : DataType} (h : a.text = b.text) : a = b := by
  induction a generalizing b with
  | scalar t =>
    obtain ⟨hform, -⟩ := form_and_inner?_of_text h
    cases b <;> cases hform
    rfl
  | dictionary key value ih =>
    obtain ⟨hform, hinner⟩ := form_and_inner?_of_text h
    cases b <;> cases hform
    obtain ⟨hkey, hvalue⟩ :=
      parts_injective (comma_not_mem_key _) (comma_not_mem_key _) (Option.some.inj hinner)
    rw [key_injective (String.toList_inj.1 hkey), ih (String.toList_inj.1 hvalue)]
  | decimal precision scale =>
    obtain ⟨hform, hinner⟩ := form_and_inner?_of_text h
    cases b <;> cases hform
    obtain ⟨hprecision, hscale⟩ :=
      parts_injective (comma_not_mem_toString _) (comma_not_mem_toString _) (Option.some.inj hinner)
    have hread := congrArg Text.integer? hscale
    rw [Text.integer?_toString, Text.integer?_toString] at hread
    rw [toString_injective hprecision, Option.some.inj hread]
  | timestamp unit zone =>
    obtain ⟨hform, hinner⟩ := form_and_inner?_of_text h
    cases b <;> cases hform
    obtain ⟨hunit, hzone⟩ :=
      parts_injective (comma_not_mem_unit _) (comma_not_mem_unit _) (Option.some.inj hinner)
    rw [unit_injective (String.toList_inj.1 hunit), zoneText_injective (String.toList_inj.1 hzone)]
  | time32 unit | time64 unit | duration unit =>
    obtain ⟨hform, hinner⟩ := form_and_inner?_of_text h
    cases b <;> cases hform
    rw [unit_injective (String.toList_inj.1 (Option.some.inj hinner))]
  | interval unit =>
    obtain ⟨hform, hinner⟩ := form_and_inner?_of_text h
    cases b <;> cases hform
    rw [intervalUnit_injective (String.toList_inj.1 (Option.some.inj hinner))]
  | float16 | largeBinary | utf8View =>
    obtain ⟨hform, -⟩ := form_and_inner?_of_text h
    cases b <;> cases hform
    rfl

end DataType

end TableScan
