import Mathlib.Data.List.Basic
import Mathlib.Data.List.Induction
import TableScan.Text.Integer

namespace TableScan.Text

variable {c : Char} {cs : List Char} {n : Nat}

theorem isDigit_iff : isDigit c = true ↔ ∃ d < 10, c = Nat.digitChar d := by
  have hdigit : ∀ d < 10, Nat.digitChar d = Char.ofNat (48 + d) ∧
    isDigit (Nat.digitChar d) = true := by decide
  constructor
  · intro h
    simp only [isDigit, Bool.and_eq_true, decide_eq_true_eq] at h
    have hlow : 48 ≤ c.toNat := h.1
    have hhigh : c.toNat ≤ 57 := h.2
    refine ⟨c.toNat - 48, by omega, ?_⟩
    rw [(hdigit _ (by omega)).1, Nat.add_sub_cancel' hlow, Char.ofNat_toNat]
  · rintro ⟨d, hd, rfl⟩
    exact (hdigit d hd).2

theorem digitsValue_append_digit (cs : List Char) {d : Nat} (hd : d < 10) :
    digitsValue (cs ++ [Nat.digitChar d]) = 10 * digitsValue cs + d := by
  have hvalue : ∀ d < 10, (Nat.digitChar d).toNat - 48 = d := by decide
  rw [digitsValue, List.foldl_append, List.foldl_cons, List.foldl_nil, hvalue d hd]
  rfl

theorem digitsValue_zeros (k : Nat) (cs : List Char) :
    digitsValue (List.replicate k '0' ++ cs) = digitsValue cs := by
  induction k with
  | zero => rfl
  | succ k ih => exact ih

theorem isDigit_of_mem_toDigits (h : c ∈ Nat.toDigits 10 n) : isDigit c = true := by
  induction n using Nat.strongRecOn with
  | ind n ih =>
    rw [Nat.toDigits_eq_if (by decide)] at h
    split at h
    · exact isDigit_iff.2 ⟨n, by assumption, List.mem_singleton.1 h⟩
    · rcases List.mem_append.1 h with h | h
      · exact ih (n / 10) (by omega) h
      · exact isDigit_iff.2 ⟨n % 10, by omega, List.mem_singleton.1 h⟩

theorem digitsValue_toDigits (n : Nat) : digitsValue (Nat.toDigits 10 n) = n := by
  induction n using Nat.strongRecOn with
  | ind n ih =>
    rw [Nat.toDigits_eq_if (by decide)]
    split
    · exact (digitsValue_append_digit [] (by assumption)).trans (by simp [digitsValue])
    · rw [digitsValue_append_digit _ (by omega), ih (n / 10) (by omega)]
      omega

theorem toDigits_digitsValue (hne : cs ≠ []) (hdigits : ∀ c ∈ cs, isDigit c = true)
    (hzero : cs = ['0'] ∨ cs.head? ≠ some '0') : Nat.toDigits 10 (digitsValue cs) = cs := by
  induction cs using List.reverseRecOn with
  | nil => exact absurd rfl hne
  | append_singleton cs c ih =>
    obtain ⟨d, hd, rfl⟩ := isDigit_iff.1 (hdigits c (by simp))
    rw [digitsValue_append_digit cs hd]
    by_cases hcs : cs = []
    · subst hcs
      rw [show digitsValue [] = 0 from rfl, Nat.mul_zero, Nat.zero_add, Nat.toDigits_of_lt_base hd,
        List.nil_append]
    · have hhead : cs.head? ≠ some '0' := by
        rcases hzero with heq | hhead
        · have hlength := congrArg List.length heq
          have hpos := List.length_pos_iff.2 hcs
          simp at hlength
          exact absurd hlength hcs
        · rwa [List.head?_append_of_ne_nil _ hcs] at hhead
      have hback := ih hcs (fun c hc => hdigits c (List.mem_append_left _ hc)) (.inr hhead)
      have hpos : 0 < digitsValue cs := by
        refine Nat.pos_of_ne_zero fun hvalue => hhead ?_
        rw [← hback, hvalue]
        rfl
      rw [← Nat.toDigits_append_toDigits (by decide) hpos hd, hback, Nat.toDigits_of_lt_base hd]

theorem natural?_eq_some_iff : natural? cs = some n ↔ cs ≠ [] ∧ (∀ c ∈ cs, isDigit c = true) ∧
    digitsValue cs = n := by
  unfold natural?
  split
  · rename_i h
    rw [List.all_eq_true] at h
    rw [Option.some.injEq]
    exact ⟨fun hn => ⟨h.1, h.2, hn⟩, fun hcs => hcs.2.2⟩
  · rename_i h
    rw [List.all_eq_true] at h
    refine iff_of_false nofun fun hcs => h ⟨hcs.1, hcs.2.1⟩

theorem natural?_toDigits (n : Nat) : natural? (Nat.toDigits 10 n) = some n :=
  natural?_eq_some_iff.2 ⟨Nat.toDigits_ne_nil, fun _ => isDigit_of_mem_toDigits,
    digitsValue_toDigits n⟩

theorem integer?_of_natural? (h : natural? cs = some n) : integer? cs = some (n : Int) := by
  obtain ⟨-, hdigits, -⟩ := natural?_eq_some_iff.1 h
  unfold integer?
  split
  · exact absurd (hdigits '-' (by simp)) (by decide)
  · exact absurd (hdigits '+' (by simp)) (by decide)
  · rw [h]
    rfl

theorem integer?_neg (h : natural? cs = some n) : integer? ('-' :: cs) = some (-(n : Int)) := by
  rw [integer?, h]
  rfl

theorem toList_toString (i : Int) :
    (toString i).toList = if 0 ≤ i then Nat.toDigits 10 i.toNat
      else '-' :: Nat.toDigits 10 (-i).toNat := by
  rw [Int.toString_eq_repr, Int.repr_eq_if]
  split <;> simp [Nat.repr_eq_ofList_toDigits]

theorem integer?_toString (i : Int) : integer? (toString i).toList = some i := by
  rw [toList_toString]
  split
  · rw [integer?_of_natural? (natural?_toDigits _), Int.toNat_of_nonneg (by assumption)]
  · rw [integer?_neg (natural?_toDigits _), Int.toNat_of_nonneg (by omega), Int.neg_neg]

end TableScan.Text
