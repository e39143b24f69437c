import TableScan.Proofs.Percent
import TableScan.Proofs.Results

namespace TableScan.Text

theorem val_ofNat {v : Nat} (h : v.isValidChar) : (Char.ofNat v).val.toNat = v := by
  rw [Char.ofNat, dif_pos h]
  rfl

theorem utf8EncodeChar_ofNat {v : Nat} (h : v.isValidChar) : String.utf8EncodeChar (Char.ofNat v) =
    if v ≤ 0x7f then [UInt8.ofNat v]
    else if v ≤ 0x7ff then [UInt8.ofNat (v / 64 % 32 + 192), UInt8.ofNat (v % 64 + 128)]
    else if v ≤ 0xffff then
      [UInt8.ofNat (v / 4096 % 16 + 224), UInt8.ofNat (v / 64 % 64 + 128),
        UInt8.ofNat (v % 64 + 128)]
    else
      [UInt8.ofNat (v / 262144 % 8 + 240), UInt8.ofNat (v / 4096 % 64 + 128),
        UInt8.ofNat (v / 64 % 64 + 128),
        UInt8.ofNat (v % 64 + 128)] := by
  unfold String.utf8EncodeChar
  rw [val_ofNat h]

section Following

variable {start code seen missing : Nat} {low high : UInt8} {bytes : List UInt8} {cs : List Char}

theorem decodeFrom_some_eq_ok
    (h : decodeFrom start (some ⟨code, missing, low, high, seen⟩) bytes = .ok cs) :
    ∃ b rest, bytes = b :: rest ∧ low.toNat ≤ b.toNat ∧ b.toNat ≤ high.toNat ∧
      (if missing = 1 then (Char.ofNat (64 * code + b.toNat % 64) :: ·) <$>
        decodeFrom (start + seen + 1) none rest
        else decodeFrom start
          (some ⟨64 * code + b.toNat % 64, missing - 1, 0x80, 0xbf, seen + 1⟩) rest) = .ok cs := by
  cases bytes with
  | nil => cases h
  | cons b rest =>
    rw [decodeFrom] at h
    split at h
    · rename_i hb
      exact ⟨b, rest, rfl, UInt8.le_iff_toNat_le.1 hb.1, UInt8.le_iff_toNat_le.1 hb.2, h⟩
    · cases h

theorem decodeFrom_last_eq_ok
    (h : decodeFrom start (some ⟨code, 1, low, high, seen⟩) bytes = .ok cs) :
    ∃ b rest cs', bytes = b :: rest ∧ low.toNat ≤ b.toNat ∧ b.toNat ≤ high.toNat ∧
      decodeFrom (start + seen + 1) none rest = .ok cs' ∧
      cs = Char.ofNat (64 * code + b.toNat % 64) :: cs' := by
  obtain ⟨b, rest, rfl, hlow, hhigh, h⟩ := decodeFrom_some_eq_ok h
  obtain ⟨cs', hrest, rfl⟩ := map_eq_ok.1 h
  exact ⟨b, rest, cs', rfl, hlow, hhigh, hrest, rfl⟩

theorem decodeFrom_more_eq_ok
    (h : decodeFrom start (some ⟨code, missing + 2, low, high, seen⟩) bytes = .ok cs) :
    ∃ b rest, bytes = b :: rest ∧ low.toNat ≤ b.toNat ∧ b.toNat ≤ high.toNat ∧
      decodeFrom start (some ⟨64 * code + b.toNat % 64, missing + 1, 0x80, 0xbf, seen + 1⟩) rest =
        .ok cs := by
  obtain ⟨b, rest, rfl, hlow, hhigh, h⟩ := decodeFrom_some_eq_ok h
  rw [if_neg (by omega)] at h
  exact ⟨b, rest, rfl, hlow, hhigh, h⟩

end Following

theorem toNat_following_low : (0x80 : UInt8).toNat = 128 := rfl

theorem toNat_following_high : (0xbf : UInt8).toNat = 191 := rfl

theorem ofNat_eq {b : UInt8} {n : Nat} (h : n = b.toNat) : UInt8.ofNat n = b := by
  rw [h, UInt8.ofNat_toNat]

theorem continuation?_eq_some {b low high : UInt8} {k : Nat}
    (h : continuation? b = some (k, low, high)) :
    128 ≤ low.toNat ∧ high.toNat ≤ 191 ∧
      (k = 1 ∧ 0xc2 ≤ b.toNat ∧ b.toNat ≤ 0xdf ∨
        k = 2 ∧ 0xe0 ≤ b.toNat ∧ b.toNat ≤ 0xef ∧
          (b.toNat = 0xe0 → 0xa0 ≤ low.toNat) ∧ (b.toNat = 0xed → high.toNat ≤ 0x9f) ∨
        k = 3 ∧ 0xf0 ≤ b.toNat ∧ b.toNat ≤ 0xf4 ∧
          (b.toNat = 0xf0 → 0x90 ≤ low.toNat) ∧ (b.toNat = 0xf4 → high.toNat ≤ 0x8f)) := by
  rw [← UInt8.ofNat_toNat (x := b), continuation?_ofNat b.toNat_lt] at h
  repeat' split at h
  all_goals cases h
  all_goals simp
  all_goals omega

theorem decodeFrom_cons_eq_ok {start : Nat} {b : UInt8} {bytes : List UInt8} {cs : List Char}
    (h : decodeFrom start none (b :: bytes) = .ok cs) : ∃ c cs' start' rest,
      b :: bytes = String.utf8EncodeChar c ++ rest ∧ decodeFrom start' none rest = .ok cs' ∧
      cs = c :: cs' := by
  have hb := b.toNat_lt
  rw [decodeFrom] at h
  split at h
  · rename_i hsmall
    rw [UInt8.lt_iff_toNat_lt] at hsmall
    change b.toNat < 128 at hsmall
    obtain ⟨cs', hrest, rfl⟩ := map_eq_ok.1 h
    refine ⟨_, cs', _, _, ?_, hrest, rfl⟩
    rw [utf8EncodeChar_ofNat (.inl (by omega)), if_pos (by omega), UInt8.ofNat_toNat]
    rfl
  · split at h
    · cases h
    · rename_i k low high hnext
      obtain ⟨hlow, hhigh, ⟨rfl, hb, hb'⟩ | ⟨rfl, hb, hb', hfirst, hlast⟩ |
          ⟨rfl, hb, hb', hfirst, hlast⟩⟩ :=
        continuation?_eq_some hnext
      · obtain ⟨b₁, rest, cs', rfl, hlow₁, hhigh₁, hrest, rfl⟩ := decodeFrom_last_eq_ok h
        refine ⟨_, cs', _, rest, ?_, hrest, rfl⟩
        rw [if_pos rfl, utf8EncodeChar_ofNat (.inl (by omega)), if_neg (by omega),
          if_pos (by omega), ofNat_eq (b := b) (by omega), ofNat_eq (b := b₁) (by omega)]
        rfl
      · obtain ⟨b₁, bytes, rfl, hlow₁, hhigh₁, h⟩ := decodeFrom_more_eq_ok h
        obtain ⟨b₂, rest, cs', rfl, hlow₂, hhigh₂, hrest, rfl⟩ := decodeFrom_last_eq_ok h
        rw [toNat_following_low] at hlow₂
        rw [toNat_following_high] at hhigh₂
        refine ⟨_, cs', _, rest, ?_, hrest, rfl⟩
        rw [if_neg (by omega), if_pos rfl, utf8EncodeChar_ofNat (by unfold Nat.isValidChar; omega),
          if_neg (by omega), if_neg (by omega), if_pos (by omega), ofNat_eq (b := b) (by omega),
          ofNat_eq (b := b₁) (by omega), ofNat_eq (b := b₂) (by omega)]
        rfl
      · obtain ⟨b₁, bytes, rfl, hlow₁, hhigh₁, h⟩ := decodeFrom_more_eq_ok h
        obtain ⟨b₂, bytes, rfl, hlow₂, hhigh₂, h⟩ := decodeFrom_more_eq_ok h
        obtain ⟨b₃, rest, cs', rfl, hlow₃, hhigh₃, hrest, rfl⟩ := decodeFrom_last_eq_ok h
        rw [toNat_following_low] at hlow₂ hlow₃
        rw [toNat_following_high] at hhigh₂ hhigh₃
        refine ⟨_, cs', _, rest, ?_, hrest, rfl⟩
        rw [if_neg (by omega), if_neg (by omega),
          utf8EncodeChar_ofNat (by unfold Nat.isValidChar; omega), if_neg (by omega),
          if_neg (by omega), if_neg (by omega), ofNat_eq (b := b) (by omega),
          ofNat_eq (b := b₁) (by omega), ofNat_eq (b := b₂) (by omega),
          ofNat_eq (b := b₃) (by omega)]
        rfl

theorem decodeFrom_eq_ok {start : Nat} {bytes : List UInt8} {cs : List Char}
    (h : decodeFrom start none bytes = .ok cs) : bytes = cs.flatMap String.utf8EncodeChar := by
  induction hn : bytes.length using Nat.strongRecOn generalizing start bytes cs with
  | ind n ih =>
    cases bytes with
    | nil =>
      rw [decodeFrom] at h
      cases h
      rfl
    | cons b bytes =>
      obtain ⟨c, cs', start', rest, hbytes, hrest, rfl⟩ := decodeFrom_cons_eq_ok h
      have hshort : rest.length < n := by
        have hlength := congrArg List.length hbytes
        have hpos := List.length_pos_of_ne_nil (utf8EncodeChar_ne_nil c)
        rw [List.length_append] at hlength
        omega
      rw [hbytes, ih _ hshort hrest rfl, List.flatMap_cons]

theorem decode_eq_ok {bytes : List UInt8} {s : String} : decode bytes = .ok s ↔ utf8 s = bytes := by
  constructor
  · intro h
    obtain ⟨cs, hcs, rfl⟩ := map_eq_ok.1 h
    rw [utf8, String.toList_ofList, decodeFrom_eq_ok hcs]
  · rintro rfl
    exact decode_utf8 s

namespace Percent

theorem decodeBytes_eq_nil {cs : List Char} : decodeBytes cs = [] ↔ cs = [] := by
  refine ⟨fun h => ?_, fun h => h ▸ rfl⟩
  unfold decodeBytes at h
  split at h
  · split at h <;> cases h
  · exact absurd (List.append_eq_nil_iff.1 h).1 (utf8EncodeChar_ne_nil _)
  · rfl

theorem decode?_eq_none {cs : List Char} : decode? cs = none ↔ ∀ s, utf8 s ≠ decodeBytes cs := by
  rw [decode?]
  cases h : decode (decodeBytes cs) with
  | ok s => exact iff_of_false (Option.some_ne_none s) fun hall => hall s (decode_eq_ok.1 h)
  | error e =>
    refine iff_of_true rfl fun s hs => ?_
    cases h.symm.trans (decode_eq_ok.2 hs)

theorem decode?_eq_some {cs : List Char} {s : String} :
    decode? cs = some s ↔ utf8 s = decodeBytes cs := by
  rw [decode?, ← decode_eq_ok]
  cases decode (decodeBytes cs) with
  | ok s' =>
    exact ⟨fun h => congrArg Except.ok (Option.some.inj h),
      fun h => congrArg some (Except.ok.inj h)⟩
  | error e => exact iff_of_false (Option.some_ne_none s).symm (by simp)

end Percent

end TableScan.Text
