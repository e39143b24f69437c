import TableScan.Proofs.Paths

namespace TableScan.Text

theorem continuation?_ofNat {n : Nat} (h : n < 256) : continuation? (UInt8.ofNat n) =
    if 0xc2 ≤ n ∧ n ≤ 0xdf then some (1, 0x80, 0xbf)
    else if n = 0xe0 then some (2, 0xa0, 0xbf)
    else if n = 0xed then some (2, 0x80, 0x9f)
    else if 0xe1 ≤ n ∧ n ≤ 0xef then some (2, 0x80, 0xbf)
    else if n = 0xf0 then some (3, 0x90, 0xbf)
    else if 0xf1 ≤ n ∧ n ≤ 0xf3 then some (3, 0x80, 0xbf)
    else if n = 0xf4 then some (3, 0x80, 0x8f)
    else none := by
  simp only [continuation?, UInt8.le_iff_toNat_le, ← UInt8.toNat_inj, UInt8.toNat_ofNat_of_lt' h]
  rfl

theorem decodeFrom_first {start n k bits : Nat} {low high : UInt8} {rest : List UInt8} (h : n < 256)
    (hn : 128 ≤ n) (hnext : continuation? (UInt8.ofNat n) = some (k, low, high))
    (hbits : (if k = 1 then n % 32 else if k = 2 then n % 16 else n % 8) = bits) :
    decodeFrom start none (UInt8.ofNat n :: rest) =
      decodeFrom start (some ⟨bits, k, low, high, 1⟩) rest := by
  have hlarge : ¬UInt8.ofNat n < 0x80 := by
    rw [UInt8.lt_iff_toNat_lt, UInt8.toNat_ofNat_of_lt' h]
    exact Nat.not_lt.2 hn
  rw [decodeFrom, if_neg hlarge, hnext, UInt8.toNat_ofNat_of_lt' h]
  simp only [hbits]

section Following

variable {start code seen n : Nat} {low high : UInt8} {rest : List UInt8}

theorem decodeFrom_following {missing : Nat} (hlow : low.toNat ≤ n % 64 + 128)
    (hhigh : n % 64 + 128 ≤ high.toNat) :
    decodeFrom start (some ⟨code, missing, low, high, seen⟩) (UInt8.ofNat (n % 64 + 128) :: rest) =
      if missing = 1 then (Char.ofNat (64 * code + n % 64) :: ·) <$>
        decodeFrom (start + seen + 1) none rest
      else decodeFrom start (some ⟨64 * code + n % 64, missing - 1, 0x80, 0xbf, seen + 1⟩)
        rest := by
  have hbyte : (UInt8.ofNat (n % 64 + 128)).toNat = n % 64 + 128 :=
    UInt8.toNat_ofNat_of_lt' (by change n % 64 + 128 < 256; omega)
  have hbits : (n % 64 + 128) % 64 = n % 64 := by omega
  rw [decodeFrom,
    if_pos (by rw [UInt8.le_iff_toNat_le, UInt8.le_iff_toNat_le, hbyte]; exact ⟨hlow, hhigh⟩),
    hbyte, hbits]

theorem decodeFrom_more {missing : Nat} (hlow : low.toNat ≤ n % 64 + 128)
    (hhigh : n % 64 + 128 ≤ high.toNat) :
    decodeFrom start (some ⟨code, missing + 2, low, high, seen⟩)
    (UInt8.ofNat (n % 64 + 128) :: rest) =
      decodeFrom start (some ⟨64 * code + n % 64, missing + 1, 0x80, 0xbf, seen + 1⟩) rest := by
  rw [decodeFrom_following hlow hhigh, if_neg (by omega)]
  rfl

theorem following_bounds (n : Nat) :
    (0x80 : UInt8).toNat ≤ n % 64 + 128 ∧ n % 64 + 128 ≤ (0xbf : UInt8).toNat := by
  change 128 ≤ n % 64 + 128 ∧ n % 64 + 128 ≤ 191
  omega

theorem decodeFrom_last (hlow : low.toNat ≤ n % 64 + 128) (hhigh : n % 64 + 128 ≤ high.toNat) :
    decodeFrom start (some ⟨code, 1, low, high, seen⟩) (UInt8.ofNat (n % 64 + 128) :: rest) =
      (Char.ofNat (64 * code + n % 64) :: ·) <$> decodeFrom (start + seen + 1) none rest := by
  rw [decodeFrom_following hlow hhigh, if_pos rfl]

end Following

theorem continuation?_three {v : Nat} (h : 2048 ≤ v) (h' : v ≤ 65535)
    (hvalid : v < 0xd800 ∨ 0xdfff < v) :
    ∃ low high, continuation? (UInt8.ofNat (v / 4096 % 16 + 224)) = some (2, low, high) ∧
      low.toNat ≤ v / 64 % 64 + 128 ∧ v / 64 % 64 + 128 ≤ high.toNat := by
  rw [continuation?_ofNat (by omega), if_neg (by omega)]
  split
  · exact ⟨0xa0, 0xbf, rfl, by change 160 ≤ _; omega, by change _ ≤ 191; omega⟩
  · split
    · exact ⟨0x80, 0x9f, rfl, by change 128 ≤ _; omega, by change _ ≤ 159; omega⟩
    · rw [if_pos (by omega)]
      exact ⟨0x80, 0xbf, rfl, by change 128 ≤ _; omega, by change _ ≤ 191; omega⟩

theorem continuation?_four {v : Nat} (h : 65536 ≤ v) (h' : v < 0x110000) :
    ∃ low high, continuation? (UInt8.ofNat (v / 262144 % 8 + 240)) = some (3, low, high) ∧
      low.toNat ≤ v / 4096 % 64 + 128 ∧ v / 4096 % 64 + 128 ≤ high.toNat := by
  rw [continuation?_ofNat (by omega), if_neg (by omega), if_neg (by omega), if_neg (by omega),
    if_neg (by omega)]
  split
  · exact ⟨0x90, 0xbf, rfl, by change 144 ≤ _; omega, by change _ ≤ 191; omega⟩
  · split
    · exact ⟨0x80, 0xbf, rfl, by change 128 ≤ _; omega, by change _ ≤ 191; omega⟩
    · rw [if_pos (by omega)]
      exact ⟨0x80, 0x8f, rfl, by change 128 ≤ _; omega, by change _ ≤ 143; omega⟩

theorem decodeFrom_utf8EncodeChar (c : Char) (start : Nat) (rest : List UInt8) : ∃ start',
    decodeFrom start none (String.utf8EncodeChar c ++ rest) =
      (c :: ·) <$> decodeFrom start' none rest := by
  have hvalid : c.val.toNat < 0xd800 ∨ 0xdfff < c.val.toNat ∧ c.val.toNat < 0x110000 := c.valid
  have hchar : Char.ofNat c.val.toNat = c := Char.ofNat_toNat c
  unfold String.utf8EncodeChar
  generalize c.val.toNat = v at hvalid hchar
  dsimp only
  split
  · have hbyte : (UInt8.ofNat v).toNat = v := UInt8.toNat_ofNat_of_lt' (by change v < 256; omega)
    have hsmall : UInt8.ofNat v < 0x80 := by
      rw [UInt8.lt_iff_toNat_lt, hbyte]
      change v < 128
      omega
    exact ⟨start + 1, by rw [List.singleton_append, decodeFrom, if_pos hsmall, hbyte, hchar]⟩
  · split
    · have hfirst : continuation? (UInt8.ofNat (v / 64 % 32 + 192)) = some (1, 0x80, 0xbf) := by
        rw [continuation?_ofNat (by omega), if_pos (by omega)]
      have hcode : 64 * ((v / 64 % 32 + 192) % 32) + v % 64 = v := by omega
      obtain ⟨hlow, hhigh⟩ := following_bounds v
      refine ⟨start + 1 + 1, ?_⟩
      simp only [List.cons_append, List.nil_append]
      rw [decodeFrom_first (by omega) (by omega) hfirst rfl, decodeFrom_last hlow hhigh]
      exact congrArg (fun d => (d :: ·) <$> _) ((congrArg Char.ofNat hcode).trans hchar)
    · split
      · obtain ⟨low, high, hfirst, hlow, hhigh⟩ :=
          continuation?_three (v := v) (by omega) (by omega) (by omega)
        have hcode : 64 * (64 * ((v / 4096 % 16 + 224) % 16) + v / 64 % 64) + v % 64 = v := by omega
        obtain ⟨hlow', hhigh'⟩ := following_bounds v
        refine ⟨start + 2 + 1, ?_⟩
        simp only [List.cons_append, List.nil_append]
        rw [decodeFrom_first (by omega) (by omega) hfirst rfl, decodeFrom_more hlow hhigh,
          decodeFrom_last hlow' hhigh']
        exact congrArg (fun d => (d :: ·) <$> _) ((congrArg Char.ofNat hcode).trans hchar)
      · obtain ⟨low, high, hfirst, hlow, hhigh⟩ := continuation?_four (v := v) (by omega) (by omega)
        have hcode : 64 * (64 * (64 * ((v / 262144 % 8 + 240) % 8) + v / 4096 % 64) + v / 64 % 64) +
            v % 64 = v := by
          omega
        obtain ⟨hlow', hhigh'⟩ := following_bounds (v / 64)
        obtain ⟨hlow'', hhigh''⟩ := following_bounds v
        refine ⟨start + 3 + 1, ?_⟩
        simp only [List.cons_append, List.nil_append]
        rw [decodeFrom_first (by omega) (by omega) hfirst rfl, decodeFrom_more hlow hhigh,
          decodeFrom_more hlow' hhigh', decodeFrom_last hlow'' hhigh'']
        exact congrArg (fun d => (d :: ·) <$> _) ((congrArg Char.ofNat hcode).trans hchar)

theorem decodeFrom_utf8 (cs : List Char) (start : Nat) :
    decodeFrom start none (cs.flatMap String.utf8EncodeChar) = .ok cs := by
  induction cs generalizing start with
  | nil => rfl
  | cons c cs ih =>
    obtain ⟨start', h⟩ := decodeFrom_utf8EncodeChar c start (cs.flatMap String.utf8EncodeChar)
    rw [List.flatMap_cons, h, ih]
    rfl

@[simp] theorem decode_utf8 (s : String) : decode (utf8 s) = .ok s := by
  rw [decode, utf8, decodeFrom_utf8]
  exact congrArg Except.ok String.ofList_toList

namespace Percent

variable {plain : Char → Bool} {c : Char} {s : String}

def encodeChar (plain : Char → Bool) (c : Char) : List Char :=
  if c.toNat < 128 ∧ plain c then [c] else (String.utf8EncodeChar c).flatMap escape

theorem flatMap_encodeChar (plain : Char → Bool) (c : Char) :
    ((String.utf8EncodeChar c).flatMap fun b =>
    let c := Char.ofNat b.toNat
    if b < 0x80 ∧ plain c then [c] else escape b) = encodeChar plain c := by
  unfold encodeChar
  split
  · rename_i h
    have hbyte : (UInt8.ofNat c.toNat).toNat = c.toNat :=
      UInt8.toNat_ofNat_of_lt' (by change c.toNat < 256; omega)
    have hsmall : UInt8.ofNat c.toNat < 0x80 := by
      rw [UInt8.lt_iff_toNat_lt, hbyte]
      exact h.1
    have hsingle : String.utf8EncodeChar c = [UInt8.ofNat c.toNat] :=
      if_pos (show c.toNat ≤ 127 by omega)
    rw [hsingle, List.flatMap_singleton, hbyte, Char.ofNat_toNat]
    exact if_pos ⟨hsmall, h.2⟩
  · rename_i h
    refine List.flatMap_congr fun b hb => if_neg fun hplain => h ?_
    have hc : Char.ofNat b.toNat = c := ofNat_of_mem_utf8EncodeChar hb hplain.1
    have hsmall : b.toNat < 128 := hplain.1
    rw [hc] at hplain
    refine ⟨?_, hplain.2⟩
    rw [← hc, Char.ofNat, dif_pos (.inl (by omega))]
    exact hsmall

theorem toList_encode (plain : Char → Bool) (s : String) :
    (encode plain s).toList = s.toList.flatMap (encodeChar plain) := by
  rw [encode, String.toList_ofList, utf8, List.flatMap_assoc]
  exact List.flatMap_congr fun c _ => flatMap_encodeChar plain c

theorem hexDigit?_upperDigit : ∀ n < 16, hexDigit? (upperDigit n) = some n := by decide

theorem decodeBytes_escape (b : UInt8) (rest : List Char) :
    decodeBytes (escape b ++ rest) = b :: decodeBytes rest := by
  have hb := b.toNat_lt
  have hbyte : 16 * (b.toNat / 16) + b.toNat % 16 = b.toNat := by omega
  simp only [escape, List.cons_append, List.nil_append]
  rw [decodeBytes, hexDigit?_upperDigit _ (by omega), hexDigit?_upperDigit _ (by omega)]
  simp only [hbyte]
  rw [Nat.toUInt8_eq, UInt8.ofNat_toNat]

theorem decodeBytes_cons (h : c ≠ '%') (rest : List Char) :
    decodeBytes (c :: rest) = String.utf8EncodeChar c ++ decodeBytes rest := by
  rw [decodeBytes]
  intro a b rest' hc
  exact absurd hc h

theorem decodeBytes_encodeChar (h : plain '%' = false) (c : Char) (rest : List Char) :
    decodeBytes (encodeChar plain c ++ rest) = String.utf8EncodeChar c ++ decodeBytes rest := by
  unfold encodeChar
  split
  · rename_i hc
    apply decodeBytes_cons
    rintro rfl
    rw [h] at hc
    exact absurd hc.2 Bool.false_ne_true
  · induction String.utf8EncodeChar c with
    | nil => rfl
    | cons b bs ih =>
      rw [List.flatMap_cons, List.append_assoc, decodeBytes_escape, ih, List.cons_append]

theorem decodeBytes_encode (h : plain '%' = false) (s : String) :
    decodeBytes (encode plain s).toList = utf8 s := by
  rw [toList_encode, utf8]
  induction s.toList with
  | nil => rfl
  | cons c cs ih => rw [List.flatMap_cons, decodeBytes_encodeChar h, ih, List.flatMap_cons]

theorem decode?_encode (h : plain '%' = false) (s : String) :
    decode? (encode plain s).toList = some s := by
  rw [decode?, decodeBytes_encode h, decode_utf8]
  rfl

theorem mem_encode_iff : c ∈ (encode plain s).toList ↔ ∃ x ∈ s.toList, c ∈ encodeChar plain x := by
  rw [toList_encode, List.mem_flatMap]

theorem not_mem_encode (h : plain c = false) (hescape : c ∉ "%0123456789ABCDEF".toList) :
    c ∉ (encode plain s).toList := by
  rw [mem_encode_iff]
  rintro ⟨x, -, hc⟩
  unfold encodeChar at hc
  split at hc
  · rename_i hx
    rw [List.mem_singleton.1 hc, hx.2] at h
    cases h
  · obtain ⟨b, -, hb⟩ := List.mem_flatMap.1 hc
    exact hescape (mem_escape hb)

theorem one_lt_length_encodeChar (h : ¬(c.toNat < 128 ∧ plain c)) :
    1 < (encodeChar plain c).length := by
  obtain ⟨b, bs, hbytes⟩ := List.exists_cons_of_ne_nil (utf8EncodeChar_ne_nil c)
  rw [encodeChar, if_neg h, hbytes, List.flatMap_cons, List.length_append]
  simp only [escape, List.length_cons]
  omega

theorem length_le_flatMap_encodeChar (plain : Char → Bool) (cs : List Char) :
    cs.length ≤ (cs.flatMap (encodeChar plain)).length := by
  induction cs with
  | nil => exact Nat.zero_le _
  | cons c cs ih =>
    rw [List.flatMap_cons, List.length_append, List.length_cons]
    by_cases h : c.toNat < 128 ∧ plain c
    · rw [encodeChar, if_pos h, List.length_singleton]
      omega
    · have hlong := one_lt_length_encodeChar h
      omega

theorem encode_eq_self_iff : encode plain s = s ↔ ∀ c ∈ s.toList, c.toNat < 128 ∧ plain c := by
  rw [← String.toList_inj, toList_encode]
  induction s.toList with
  | nil => simp
  | cons c cs ih =>
    rw [List.flatMap_cons, List.forall_mem_cons, ← ih]
    by_cases h : c.toNat < 128 ∧ plain c
    · rw [encodeChar, if_pos h, List.singleton_append, List.cons_inj_right]
      exact (and_iff_right h).symm
    · refine iff_of_false (fun heq => ?_) fun hc => h hc.1
      have hlength := congrArg List.length heq
      rw [List.length_append, List.length_cons] at hlength
      have hlong := one_lt_length_encodeChar h
      have hrest := length_le_flatMap_encodeChar plain cs
      omega

theorem encode_of_all (h : (s.toList.all fun c => decide (c.toNat < 128) && plain c) = true) :
    encode plain s = s :=
  encode_eq_self_iff.2 fun c hc => by simpa using List.all_eq_true.1 h c hc

end Percent

end TableScan.Text
