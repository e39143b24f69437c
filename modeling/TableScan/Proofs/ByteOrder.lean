import Mathlib.Data.String.Basic
import TableScan.Format.RowGroup
import TableScan.Proofs.Order
import TableScan.Proofs.Utf8

namespace TableScan

open Std (OrientedCmp ReflCmp)

section Bytes

variable {x y : UInt8} {xs ys zs : List UInt8}

theorem compareBytes_lt_cons :
    compareBytes (x :: xs) (y :: ys) = .lt ↔
      x.toNat < y.toNat ∨ x.toNat = y.toNat ∧ compareBytes xs ys = .lt := by
  rw [compareBytes, Ordering.then_eq_lt, UInt8.compare_eq_toNat_compare_toNat, Nat.compare_eq_lt,
    Nat.compare_eq_eq]

theorem compareBytes_append (ps : List UInt8) :
    compareBytes (ps ++ xs) (ps ++ ys) = compareBytes xs ys := by
  induction ps with
  | nil => rfl
  | cons p ps ih =>
    rw [List.cons_append, List.cons_append, compareBytes, ih,
      show compare p p = .eq from ReflCmp.compare_self]; rfl

theorem isLE_nil (ys : List UInt8) : (compareBytes [] ys).isLE := by
  cases ys <;> rfl

theorem isLE_append (ps ys : List UInt8) : (compareBytes ps (ps ++ ys)).isLE := by
  calc (compareBytes ps (ps ++ ys)).isLE
      = (compareBytes (ps ++ []) (ps ++ ys)).isLE := by rw [List.append_nil]
    _ = (compareBytes [] ys).isLE := by rw [compareBytes_append]
    _ = true := isLE_nil ys

end Bytes

namespace Text

theorem digit_lt {v w : Nat} (h : v < w) :
    v / 64 < w / 64 ∨ v / 64 = w / 64 ∧ v % 64 < w % 64 := by omega

theorem compareBytes_encoded {c d : Char} (h : c < d) (xs ys : List UInt8) :
    compareBytes (String.utf8EncodeChar c ++ xs) (String.utf8EncodeChar d ++ ys) = .lt := by
  have hlt : c.toNat < d.toNat := h
  have hmax : d.toNat < 0x110000 := by
    rcases d.valid with hd | hd <;> simp only [Char.toNat_val] at hd <;> omega
  have hc := utf8EncodeChar_ofNat c.valid
  have hd := utf8EncodeChar_ofNat d.valid
  simp only [Char.toNat_val, Char.ofNat_toNat] at hc hd
  rw [hc, hd]
  generalize c.toNat = v at hlt
  generalize d.toNat = w at hlt hmax
  have byte {n : Nat} (hn : n < 256) : (UInt8.ofNat n).toNat = n := UInt8.toNat_ofNat_of_lt' hn
  have hlast := digit_lt hlt
  have hthird (h : v / 64 < w / 64) := digit_lt h
  have hsecond (h : v / 64 / 64 < w / 64 / 64) := digit_lt h
  simp only [Nat.div_div_eq_div_mul, Nat.reduceMul] at hlast hthird hsecond
  -- of four bytes the first has three bits
  have hfirst (n : Nat) (hn : n < 0x110000) : n / 262144 % 8 = n / 262144 :=
    Nat.mod_eq_of_lt (by omega)
  rw [hfirst v (by omega), hfirst w hmax]
  split_ifs
  all_goals simp only [List.cons_append, compareBytes_lt_cons]
  all_goals repeat rw [byte (by omega)]
  all_goals omega

theorem compareBytes_of_lt {cs ds : List Char} (h : cs < ds) :
    compareBytes (cs.flatMap String.utf8EncodeChar) (ds.flatMap String.utf8EncodeChar) = .lt := by
  induction cs generalizing ds with
  | nil =>
    cases ds with
    | nil => cases h
    | cons d ds =>
      rw [List.flatMap_cons, List.flatMap_nil]
      obtain ⟨b, bs, hb⟩ := List.exists_cons_of_ne_nil (utf8EncodeChar_ne_nil d)
      rw [hb]
      rfl
  | cons c cs ih =>
    cases ds with
    | nil => cases h
    | cons d ds =>
      rw [List.flatMap_cons, List.flatMap_cons]
      rcases List.cons_lt_cons_iff.1 h with hcd | ⟨rfl, hrest⟩
      · exact compareBytes_encoded hcd _ _
      · rw [compareBytes_append, ih hrest]

theorem compareBytes_utf8 (s t : String) : compareBytes (utf8 s) (utf8 t) = Ord.compare s t := by
  rcases lt_trichotomy s t with h | rfl | h
  · rw [compare_lt_iff_lt.2 h]
    exact compareBytes_of_lt (String.lt_iff.1 h)
  · rw [compare_eq_iff_eq.2 rfl]
    exact ReflCmp.compare_self
  · rw [compare_gt_iff_gt.2 h]
    exact OrientedCmp.gt_of_lt (compareBytes_of_lt (String.lt_iff.1 h))

end Text

namespace Statistics

theorem beginning_prefix (limit : Nat) (cs : List Char) : beginning limit cs <+: cs := by
  induction cs generalizing limit with
  | nil => exact List.nil_prefix
  | cons c cs ih =>
    unfold beginning
    split
    · exact List.cons_prefix_cons.2 ⟨rfl, ih _⟩
    · exact List.nil_prefix

theorem lt_of_successor? {c d : Char} (h : successor? c = some d) : c < d := by
  have hvalid := c.valid
  unfold successor? at h
  generalize hn : (if c.toNat = 0xd7ff then 0xe000 else c.toNat + 1) = n at h
  simp only [Option.ite_none_right_eq_some, Option.some.injEq] at h
  obtain ⟨⟨hmax, -⟩, rfl⟩ := h
  have hnext : c.toNat < n ∧ n.isValidChar := by
    rcases hvalid with h | h <;> simp only [Char.toNat_val] at h <;> split_ifs at hn <;>
      simp only [Nat.isValidChar] <;> omega
  rw [Char.lt_def, UInt32.lt_iff_toNat_lt, Char.toNat_val, Text.val_ofNat hnext.2]
  exact hnext.1

theorem lt_of_increment? {cs ds : List Char} (h : increment? cs = some ds) (rest : List Char) :
    cs ++ rest < ds := by
  induction cs generalizing ds with
  | nil => cases h
  | cons c cs ih =>
    rw [increment?] at h
    cases hcs : increment? cs with
    | some short =>
      rw [hcs] at h
      cases h
      exact List.cons_lt_cons_iff.2 (.inr ⟨rfl, ih hcs⟩)
    | none =>
      rw [hcs] at h
      obtain ⟨d, hd, rfl⟩ := Option.map_eq_some_iff.1 h
      exact List.cons_lt_cons_iff.2 (.inl (lt_of_successor? hd))

theorem lt_of_incrementBytes? {bs cs : List UInt8} (h : incrementBytes? bs = some cs)
    (rest : List UInt8) :
    compareBytes (bs ++ rest) cs = .lt := by
  induction bs generalizing cs with
  | nil => cases h
  | cons b bs ih =>
    rw [incrementBytes?] at h
    cases hbs : incrementBytes? bs with
    | some short =>
      rw [hbs] at h
      cases h
      exact compareBytes_lt_cons.2 (.inr ⟨rfl, ih hbs⟩)
    | none =>
      rw [hbs] at h
      replace h : (if b = 0xff then none else some ((b + 1) :: bs.map fun _ => 0)) = some cs := h
      split at h
      · cases h
      · rename_i hb
        cases h
        refine compareBytes_lt_cons.2 (.inl ?_)
        have hlt := b.toNat_lt
        have hne : b.toNat ≠ 255 := fun h => hb (UInt8.toNat_inj.1 h)
        rw [UInt8.toNat_add]
        change b.toNat < (b.toNat + 1) % 256
        omega

theorem isLE_shortLow? {isText : Bool} {limit : Nat} {bs cs : List UInt8}
    (h : shortLow? isText limit bs = some cs) :
    (compareBytes cs bs).isLE := by
  unfold shortLow? at h
  split at h
  · obtain ⟨s, hs, h⟩ := Option.bind_eq_some_iff.1 h
    simp only [Option.ite_none_left_eq_some, Option.some.injEq] at h
    obtain ⟨-, rfl⟩ := h
    obtain ⟨rest, hrest⟩ := beginning_prefix limit s.toList
    generalize beginning limit s.toList = short at hrest
    rw [← Text.decode_eq_ok.1 (toOption_eq_some.1 hs), Text.utf8, Text.utf8, String.toList_ofList,
      ← hrest, List.flatMap_append]
    exact isLE_append _ _
  · cases h
    have happend := isLE_append (bs.take limit) (bs.drop limit)
    rwa [List.take_append_drop] at happend

theorem isLE_shortHigh? {isText : Bool} {limit : Nat} {bs cs : List UInt8}
    (h : shortHigh? isText limit bs = some cs) : (compareBytes bs cs).isLE := by
  unfold shortHigh? at h
  split at h
  · obtain ⟨s, hs, h⟩ := Option.bind_eq_some_iff.1 h
    obtain ⟨short, hshort, h⟩ := Option.bind_eq_some_iff.1 h
    cases h
    obtain ⟨rest, hrest⟩ := beginning_prefix limit s.toList
    have hlt := Text.compareBytes_of_lt (lt_of_increment? hshort rest)
    rw [hrest] at hlt
    rw [← Text.decode_eq_ok.1 (toOption_eq_some.1 hs), Text.utf8, Text.utf8,
      String.toList_ofList, hlt]
    rfl
  · have hlt := lt_of_incrementBytes? h (bs.drop limit)
    rw [List.take_append_drop] at hlt
    rw [hlt]
    rfl

end Statistics

end TableScan
