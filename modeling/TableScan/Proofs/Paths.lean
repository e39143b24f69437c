import TableScan.Storage
import Mathlib.Data.List.Basic

namespace TableScan

namespace Path

theorem split_eq_splitOn (c : Char) (cs : List Char) : split c cs = cs.splitOn c := by
  induction cs with
  | nil => rfl
  | cons x cs ih =>
    rw [split, ih, List.splitOn_cons_eq_if_modifyHead]
    by_cases h : x = c
    · simp [h]
    · obtain ⟨piece, rest, hpieces⟩ := List.exists_cons_of_ne_nil (List.splitOn_ne_nil c cs)
      simp [h, hpieces]

theorem split_append_cons (c : Char) (xs ys : List Char) :
    split c (xs ++ c :: ys) = split c xs ++ split c ys := by
  simp only [split_eq_splitOn, List.splitOn_append_cons_self]

theorem not_mem_of_mem_split {c : Char} {cs piece : List Char} (h : piece ∈ split c cs) :
    c ∉ piece := by
  induction cs generalizing piece with
  | nil =>
    rw [List.mem_singleton.1 h]
    exact List.not_mem_nil
  | cons x cs ih =>
    rw [split] at h
    split at h
    · rcases List.mem_cons.1 h with rfl | h
      · exact List.not_mem_nil
      · exact ih h
    · rename_i hx
      split at h
      · rw [List.mem_singleton.1 h]
        simpa using Ne.symm hx
      · rename_i first rest hpieces
        rw [hpieces] at ih
        rcases List.mem_cons.1 h with rfl | h
        · simpa [Ne.symm hx] using ih List.mem_cons_self
        · exact ih (List.mem_cons_of_mem _ h)

def IsName (name : String) : Prop := name ≠ "" ∧ '/' ∉ name.toList

theorem isName_of_mem_parts {path name : String} (h : name ∈ parts path) : IsName name := by
  obtain ⟨piece, hpiece, rfl⟩ := List.mem_map.1 h
  obtain ⟨hmem, hne⟩ := List.mem_filter.1 hpiece
  refine ⟨fun h => of_decide_eq_true hne (by simpa using congrArg String.toList h), ?_⟩
  rw [String.toList_ofList]
  exact not_mem_of_mem_split hmem

@[simp] theorem parts_empty : parts "" = [] := rfl

theorem split_intercalate {names : List String} (hne : names ≠ [])
    (h : ∀ name ∈ names, IsName name) :
    split '/' ("/".intercalate names).toList = names.map String.toList := by
  rw [split_eq_splitOn, String.toList_intercalate]
  refine List.splitOn_intercalate '/' (fun piece hpiece => ?_) (by simpa using hne)
  obtain ⟨name, hname, rfl⟩ := List.mem_map.1 hpiece
  exact (h name hname).2

theorem parts_intercalate {names : List String} (h : ∀ name ∈ names, IsName name) :
    parts ("/".intercalate names) = names := by
  by_cases hne : names = []
  · subst hne
    rfl
  · rw [parts, split_intercalate hne h, List.filter_eq_self.2, List.map_map]
    · exact (List.map_congr_left fun name _ => String.ofList_toList).trans (List.map_id names)
    · intro piece hpiece
      obtain ⟨name, hname, rfl⟩ := List.mem_map.1 hpiece
      simpa using (h name hname).1

theorem mem_iff_mem_split {c x : Char} (hx : x ≠ c) (cs : List Char) :
    x ∈ cs ↔ ∃ piece ∈ split c cs, x ∈ piece := by
  induction cs with
  | nil => simp [split]
  | cons y cs ih =>
    rw [split, List.mem_cons, ih]
    split
    · rename_i hy
      simp [hy, hx]
    · split
      · rename_i hnil
        simp [hnil]
      · rename_i hpieces
        simp [hpieces, or_assoc]

theorem mem_iff_mem_parts {path : String} {c : Char} (hc : c ≠ '/') :
    c ∈ path.toList ↔ ∃ name ∈ parts path, c ∈ name.toList := by
  rw [mem_iff_mem_split hc]
  constructor
  · rintro ⟨piece, hpiece, hmem⟩
    have hne : piece ≠ [] := List.ne_nil_of_mem hmem
    refine ⟨String.ofList piece,
      List.mem_map_of_mem (List.mem_filter.2 ⟨hpiece, decide_eq_true hne⟩), ?_⟩
    rwa [String.toList_ofList]
  · rintro ⟨name, hname, hmem⟩
    obtain ⟨piece, hpiece, rfl⟩ := List.mem_map.1 hname
    rw [String.toList_ofList] at hmem
    exact ⟨piece, List.mem_of_mem_filter hpiece, hmem⟩

theorem parts_below (directory path : String) :
    parts (directory ++ "/" ++ path) = parts directory ++ parts path := by
  have hlist : (directory ++ "/" ++ path).toList = directory.toList ++ '/' :: path.toList := by simp
  rw [parts, hlist, split_append_cons, List.filter_append, List.map_append]
  rfl

theorem parts_trim (path : String) : parts (trim path) = parts path := by
  have opening (cs : List Char) :
      (split '/' (dropSlashes cs)).filter (· ≠ []) = (split '/' cs).filter (· ≠ []) := by
    induction cs with
    | nil => rfl
    | cons x cs ih =>
      by_cases hx : x = '/'
      · subst hx
        exact ih
      · rw [dropSlashes, List.dropWhile_cons_of_neg (by simpa using hx)]
  have closing (cs : List Char) :
      (split '/' (dropSlashes cs).reverse).filter (· ≠ []) =
      (split '/' cs.reverse).filter (· ≠ []) := by
    induction cs with
    | nil => rfl
    | cons x cs ih =>
      by_cases hx : x = '/'
      · subst hx
        rw [List.reverse_cons, split_append_cons, List.filter_append]
        exact ih.trans (List.append_nil _).symm
      · rw [dropSlashes, List.dropWhile_cons_of_neg (by simpa using hx)]
  rw [parts, trim, String.toList_ofList, closing, List.reverse_reverse, opening, parts]

def IsNormal (path : String) : Prop := "/".intercalate (parts path) = path

instance (path : String) : Decidable (IsNormal path) := inferInstanceAs (Decidable (_ = _))

theorem isNormal_intercalate {names : List String} (h : ∀ name ∈ names, IsName name) :
    IsNormal ("/".intercalate names) := by
  rw [IsNormal, parts_intercalate h]

theorem IsNormal.ext {a b : String} (ha : IsNormal a) (hb : IsNormal b) (h : parts a = parts b) :
    a = b := by
  rw [← ha, ← hb, h]

theorem IsNormal.eq_empty_iff {path : String} (h : IsNormal path) :
    path = "" ↔ parts path = [] := by
  constructor
  · rintro rfl
    rfl
  · intro hparts
    rw [← h, hparts, String.intercalate_nil]

theorem isNormal_iff {path : String} : IsNormal path ↔ path = "" ∨ [] ∉ split '/' path.toList := by
  constructor
  · intro h
    by_cases hempty : path = ""
    · exact .inl hempty
    · refine .inr ?_
      rw [← h, split_intercalate (mt h.eq_empty_iff.2 hempty) fun _ => isName_of_mem_parts]
      intro hnil
      obtain ⟨name, hname, hnil⟩ := List.mem_map.1 hnil
      exact (isName_of_mem_parts hname).1 (by simpa using hnil)
  · rintro (rfl | h)
    · rfl
    · have hall : (split '/' path.toList).filter (· ≠ []) = split '/' path.toList :=
        List.filter_eq_self.2 fun piece hpiece => decide_eq_true fun hnil => h (hnil ▸ hpiece)
      have hback : String.toList ∘ String.ofList = id := funext fun _ => String.toList_ofList
      apply String.toList_inj.1
      rw [String.toList_intercalate, parts, hall, List.map_map, hback, List.map_id,
        split_eq_splitOn]
      exact List.intercalate_splitOn '/'

theorem IsNormal.sides {directory path : String} (h : IsNormal (directory ++ "/" ++ path)) :
    (IsNormal directory ∧ directory ≠ "") ∧ IsNormal path ∧ path ≠ "" := by
  have hlist : (directory ++ "/" ++ path).toList = directory.toList ++ '/' :: path.toList := by simp
  have hsplit : [] ∉ split '/' directory.toList ++ split '/' path.toList := by
    rcases isNormal_iff.1 h with h | h
    · rw [h] at hlist
      simp at hlist
    · rwa [hlist, split_append_cons] at h
  rw [List.mem_append, not_or] at hsplit
  have hside {side : String} (hside : [] ∉ split '/' side.toList) : IsNormal side ∧ side ≠ "" := by
    refine ⟨isNormal_iff.2 (.inr hside), ?_⟩
    rintro rfl
    exact hside List.mem_cons_self
  exact ⟨hside hsplit.1, hside hsplit.2⟩

theorem below?_eq_some {directory path rest : String} :
    below? directory path = some rest ↔ path = directory ++ "/" ++ rest := by
  have hlist : (directory ++ "/" ++ rest).toList = (directory.toList ++ ['/']) ++ rest.toList := by
    simp
  unfold below?
  constructor
  · intro h
    dsimp only at h
    split at h
    · rename_i hprefix
      cases h
      obtain ⟨cs, hcs⟩ := List.isPrefixOf_iff_prefix.1 hprefix
      apply String.toList_inj.1
      simp [← hcs]
    · cases h
  · rintro rfl
    dsimp only
    rw [hlist, if_pos (List.isPrefixOf_iff_prefix.2 (List.prefix_append _ _)), List.drop_left,
      String.ofList_toList]

def IsBelow (directory path : String) : Prop :=
  ∃ names, names ≠ [] ∧ parts path = parts directory ++ names

def namesBelow (directory path : String) : List String := (parts path).drop (parts directory).length

theorem IsBelow.parts_eq {directory path : String} (h : IsBelow directory path) :
    parts path = parts directory ++ namesBelow directory path := by
  obtain ⟨names, -, hparts⟩ := h
  rw [namesBelow, hparts, List.drop_left]

theorem IsBelow.namesBelow_ne_nil {directory path : String} (h : IsBelow directory path) :
    namesBelow directory path ≠ [] := by
  obtain ⟨names, hnames, hparts⟩ := h
  rwa [namesBelow, hparts, List.drop_left]

theorem isName_of_mem_namesBelow {directory path name : String}
    (h : name ∈ namesBelow directory path) :
    IsName name := isName_of_mem_parts (List.mem_of_mem_drop h)

theorem below?_eq_some_iff {directory path rest : String} (hd : IsNormal directory)
    (hne : directory ≠ "") (hp : IsNormal path) : below? directory path = some rest ↔
      IsBelow directory path ∧ rest = "/".intercalate (namesBelow directory path) := by
  rw [below?_eq_some]
  constructor
  · rintro rfl
    obtain ⟨-, hrest, hrest'⟩ := hp.sides
    have hbelow : IsBelow directory (directory ++ "/" ++ rest) :=
      ⟨parts rest, mt hrest.eq_empty_iff.2 hrest', parts_below directory rest⟩
    refine ⟨hbelow, ?_⟩
    rw [List.append_cancel_left (hbelow.parts_eq.symm.trans (parts_below directory rest)), hrest]
  · rintro ⟨hbelow, rfl⟩
    calc path = "/".intercalate (parts directory ++ namesBelow directory path) := by
          rw [← hbelow.parts_eq, hp]
      _ = "/".intercalate (parts directory) ++ "/" ++ "/".intercalate (namesBelow directory path) :=
          String.intercalate_append_of_ne_nil (mt hd.eq_empty_iff.2 hne) hbelow.namesBelow_ne_nil
      _ = directory ++ "/" ++ "/".intercalate (namesBelow directory path) := by rw [hd]

end Path

namespace Text

theorem utf8EncodeChar_ne_nil (c : Char) : String.utf8EncodeChar c ≠ [] := by
  rw [← List.length_pos_iff, String.length_utf8EncodeChar]
  exact c.utf8Size_pos

theorem ofNat_of_mem_utf8EncodeChar {c : Char} {b : UInt8} (h : b ∈ String.utf8EncodeChar c)
    (hb : b < 0x80) :
    Char.ofNat b.toNat = c := by
  have hb : b.toNat < 128 := hb
  unfold String.utf8EncodeChar at h
  dsimp only at h
  split at h
  · rename_i hc
    rw [List.mem_singleton.1 h, UInt8.toNat_ofNat_of_lt' (Nat.lt_of_le_of_lt hc (by decide))]
    exact Char.ofNat_toNat c
  · exfalso
    have high {n : Nat} (h : b = UInt8.ofNat n) (h₁ : 128 ≤ n) (h₂ : n < 256) : False := by
      rw [h, UInt8.toNat_ofNat_of_lt' h₂] at hb
      omega
    split at h
    · simp only [List.mem_cons, List.not_mem_nil, or_false] at h
      rcases h with h | h <;> exact high h (by omega) (by omega)
    · split at h <;> simp only [List.mem_cons, List.not_mem_nil, or_false] at h
      · rcases h with h | h | h <;> exact high h (by omega) (by omega)
      · rcases h with h | h | h | h <;> exact high h (by omega) (by omega)

namespace Percent

theorem encode_ne_empty {plain : Char → Bool} {s : String} (h : s ≠ "") : encode plain s ≠ "" := by
  obtain ⟨c, cs, hcs⟩ := List.exists_cons_of_ne_nil (mt String.toList_eq_nil_iff.1 h)
  obtain ⟨b, bs, hbs⟩ := List.exists_cons_of_ne_nil (utf8EncodeChar_ne_nil c)
  intro hempty
  have hnil := congrArg String.toList hempty
  simp only [encode, utf8, hcs, hbs, List.flatMap_cons, List.cons_append, String.toList_ofList]
    at hnil
  split at hnil <;> exact absurd hnil (by simp [escape])

theorem mem_encode {plain : Char → Bool} {s : String} {c : Char} (h : c ∈ (encode plain s).toList) :
    c ∈ s.toList ∨ ∃ b, c ∈ escape b := by
  rw [encode, String.toList_ofList] at h
  obtain ⟨b, hb, hc⟩ := List.mem_flatMap.1 h
  dsimp only at hc
  split at hc
  · rename_i hplain
    obtain ⟨x, hx, hbx⟩ := List.mem_flatMap.1 hb
    rw [List.mem_singleton.1 hc, ofNat_of_mem_utf8EncodeChar hbx hplain.1]
    exact .inl hx
  · exact .inr ⟨b, hc⟩

theorem mem_escape {b : UInt8} {c : Char} (h : c ∈ escape b) : c ∈ "%0123456789ABCDEF".toList := by
  have hdigit : ∀ n < 16, upperDigit n ∈ "%0123456789ABCDEF".toList := by decide
  have hb := b.toNat_lt
  simp only [escape, List.mem_cons, List.not_mem_nil, or_false] at h
  rcases h with rfl | rfl | rfl
  · decide
  · exact hdigit _ (by omega)
  · exact hdigit _ (by omega)

end Percent

end Text

namespace Storage

open TableScan.Path

theorem isName_encodePart {part : String} (h : IsName part) : IsName (encodePart part) := by
  unfold encodePart
  split
  · exact ⟨by decide, by decide⟩
  · split
    · exact ⟨by decide, by decide⟩
    · refine ⟨Text.Percent.encode_ne_empty h.1, fun hslash => ?_⟩
      rcases Text.Percent.mem_encode hslash with hmem | ⟨b, hmem⟩
      · exact h.2 hmem
      · exact absurd (Text.Percent.mem_escape hmem) (by decide)

theorem isName_of_mem_encoded {path name : String} (h : name ∈ (parts path).map encodePart) :
    IsName name := by
  obtain ⟨part, hpart, rfl⟩ := List.mem_map.1 h
  exact isName_encodePart (isName_of_mem_parts hpart)

theorem parts_locate (path : String) : parts (locate path) = (parts path).map encodePart :=
  parts_intercalate fun _ => isName_of_mem_encoded

theorem isNormal_locate (path : String) : IsNormal (locate path) :=
  isNormal_intercalate fun _ => isName_of_mem_encoded

theorem locate_trim (path : String) : locate (trim path) = locate path := by
  rw [locate, parts_trim, locate]

end Storage

end TableScan
