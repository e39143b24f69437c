import TableScan.Proofs.Comparison

namespace TableScan

namespace Floating

variable {f g : FloatFormat}

theorem isSignalling_of_not_isNaN {x : Floating f} (h : x.isNaN = false) :
    x.isSignalling = false := by
  simp [isSignalling, h]

theorem isNaN_ofMagnitude {negative : Bool} {m : Nat} (h : m ≤ f.infinity) :
    (ofMagnitude negative m : Floating f).isNaN = false := by
  simp only [isNaN, decide_eq_false_iff_not, not_lt,
    magnitude_ofMagnitude negative (h.trans_lt (infinity_lt_signBit f))]
  exact h

theorem isSignalling_round (negative : Bool) (n d : Nat) :
    (round negative n d : Floating f).isSignalling = false :=
  isSignalling_of_not_isNaN (isNaN_ofMagnitude (roundMagnitude_le_infinity f n d))

theorem isSignalling_inf (negative : Bool) : (inf negative : Floating f).isSignalling = false :=
  isSignalling_of_not_isNaN (isNaN_ofMagnitude le_rfl)

theorem isSignalling_zero (negative : Bool) : (zero negative : Floating f).isSignalling = false :=
  isSignalling_of_not_isNaN (isNaN_ofMagnitude (Nat.zero_le _))

theorem two_pow_fractionBits (f : FloatFormat) :
    2 ^ f.fractionBits = 2 ^ (f.fractionBits - 1) + 2 ^ (f.fractionBits - 1) := by
  cases f <;> rfl

theorem isSignalling_ofMagnitude {negative : Bool} {m : Nat} (hl : 2 ^ (f.fractionBits - 1) ≤ m)
    (hu : m < 2 ^ f.fractionBits) :
    (ofMagnitude negative (f.infinity + m) : Floating f).isSignalling = false := by
  have hb : f.infinity + m < signBit f := by
    rw [← infinity_add]
    omega
  have hi : f.infinity % 2 ^ f.fractionBits = 0 := by
    rw [FloatFormat.infinity, Nat.mul_mod_left]
  rw [isSignalling, magnitude_ofMagnitude negative hb, Nat.add_mod, hi, Nat.zero_add, Nat.mod_mod,
    Nat.mod_eq_of_lt hu]
  simp [hl]

theorem isSignalling_nan (negative : Bool) : (nan negative : Floating f).isSignalling = false := by
  have := two_pow_fractionBits f
  have := Nat.two_pow_pos (f.fractionBits - 1)
  exact isSignalling_ofMagnitude le_rfl (by omega)

theorem isSignalling_convert (x : Floating g) : (x.convert : Floating f).isSignalling = false := by
  simp only [convert]
  split
  · have hpay : x.magnitude % 2 ^ g.fractionBits < 2 ^ g.fractionBits :=
      Nat.mod_lt _ (Nat.two_pow_pos _)
    have hkept : x.magnitude % 2 ^ g.fractionBits * 2 ^ f.fractionBits / 2 ^ g.fractionBits <
        2 ^ f.fractionBits :=
      Nat.div_lt_of_lt_mul (Nat.mul_lt_mul_of_pos_right hpay (Nat.two_pow_pos _))
    have hq := two_pow_fractionBits f
    generalize x.magnitude % 2 ^ g.fractionBits * 2 ^ f.fractionBits / 2 ^ g.fractionBits =
      kept at *
    split
    · exact isSignalling_ofMagnitude (by omega) (by omega)
    · exact isSignalling_ofMagnitude (by omega) hkept
  · split
    · exact isSignalling_inf _
    · exact isSignalling_round _ _ _

theorem isSignalling_ofInt (i : Int) : (ofInt i : Floating f).isSignalling = false :=
  isSignalling_round _ _ _

theorem isSignalling_ofDecimal (negative : Bool) (c : Nat) (e : Int) :
    (ofDecimal negative c e : Floating f).isSignalling = false := by
  simp only [ofDecimal]
  split
  · exact isSignalling_zero _
  · split
    · exact isSignalling_inf _
    · split <;> exact isSignalling_round _ _ _

theorem isSignalling_unsignedOfChars? {negative : Bool} {cs : List Char} {x : Floating f}
    (h : unsignedOfChars? negative cs = some x) : x.isSignalling = false := by
  simp only [unsignedOfChars?, Option.bind_eq_bind] at h
  split at h <;> split at h
  all_goals
    obtain ⟨e, he, h⟩ := Option.bind_eq_some_iff.1 h
    first
    | cases he
    | (cases h; exact isSignalling_ofDecimal _ _ _)

theorem isSignalling_ofChars? {negative : Bool} {cs : List Char} {x : Floating f}
    (h : ofChars? negative cs = some x) : x.isSignalling = false := by
  simp only [ofChars?] at h
  split at h
  · cases h
    exact isSignalling_nan _
  · split at h
    · cases h
      exact isSignalling_inf _
    · exact isSignalling_unsignedOfChars? h

theorem isSignalling_ofText? {s : String} {x : Floating f} (h : ofText? s = some x) :
    x.isSignalling = false := by
  simp only [ofText?] at h
  split at h <;> exact isSignalling_ofChars? h

end Floating

def Outcome.IsQuiet {f : FloatFormat} (o : Outcome (Floating f)) : Prop :=
  ∀ x, o = .ok x → x.isSignalling = false

theorem eq_some_of_orElse {α : Type} {x y : Option α} {a : α} (h : (x <|> y) = some a) :
    x = some a ∨ y = some a := by
  cases x with
  | none => exact .inr h
  | some b => exact .inl h

namespace Conversion

theorem eq_of_eachOf {α β γ : Type} {read? : Option (α → β)} {f : β → Outcome γ} {r : α → Outcome γ}
    (h : eachOf read? f = some (.ok r)) : ∃ read, read? = some read ∧ r = fun a => f (read a) := by
  cases read? with
  | none => cases h
  | some read =>
    cases h
    exact ⟨read, rfl, rfl⟩

theorem isQuiet_toFloating? {f : FloatFormat} {name p : DataType}
    {r : p.Carrier → Outcome (Floating f)} (h : toFloating? f name p = some (.ok r))
    (a : p.Carrier) :
    (r a).IsQuiet := by
  have number (n : Number) : (Outcome.ok (n.toFloating f)).IsQuiet := by
    rintro x ⟨⟩
    cases n with
    | int i => exact Floating.isSignalling_ofInt i
    | floating g y => exact Floating.isSignalling_convert y
  have integer (i : Int) : (Outcome.ok (Floating.ofInt (f := f) i)).IsQuiet := by
    rintro x ⟨⟩
    exact Floating.isSignalling_ofInt i
  have text (s : String) : (parseFloating f name s).IsQuiet := by
    intro x hx
    simp only [parseFloating] at hx
    cases ho : Floating.ofText? (f := f) s with
    | none => simp [ho, Outcome.ofOption] at hx
    | some y =>
      simp only [ho, Outcome.ofOption, Outcome.ok.injEq] at hx
      subst hx
      exact Floating.isSignalling_ofText? ho
  have other (h : (eachOf p.number? (fun n => .ok (n.toFloating f))
      <|> eachOf p.ticks? (fun i => .ok (.ofInt i.val))
      <|> (if f = .half then none else eachOf p.string? (parseFloating f name))) = some (.ok r)) :
      (r a).IsQuiet := by
    rcases eq_some_of_orElse h with h | h
    · obtain ⟨read, -, rfl⟩ := eq_of_eachOf h
      exact number _
    rcases eq_some_of_orElse h with h | h
    · obtain ⟨read, -, rfl⟩ := eq_of_eachOf h
      exact integer _
    split at h
    · cases h
    · obtain ⟨read, -, rfl⟩ := eq_of_eachOf h
      exact text _
  cases p with
  | scalar t => cases t with
    | boolean =>
      cases h
      exact integer _
    | _ => exact other h
  | decimal digits scale =>
    simp only [toFloating?] at h
    split at h
    · cases h
    · cases h
      rintro x ⟨⟩
      exact Floating.isSignalling_convert _
  | _ => exact other h

end Conversion

namespace Value

theorem isQuiet_of_ne {t : DataType} {a : t.Carrier} (h : t ≠ .float32) : (of t a).isQuiet := by
  cases t with
  | scalar t => cases t with
    | float32 => exact absurd rfl h
    | _ => rfl
  | _ => rfl

theorem isQuiet_ofCell_of_ne {t : DataType} (h : t.plain ≠ .float32) (c : Option t.Carrier) :
    (ofCell t c).isQuiet := by
  cases c with
  | none => rfl
  | some a =>
    obtain ⟨b, hb⟩ := ofSome_plain t a
    rw [ofCell_some, hb]
    exact isQuiet_of_ne h

theorem isQuiet_asCell?_float32 {p : DataType} {a : p.Carrier} {x : Floating .single}
    (h : (of p a).asCell? .float32 = some (some x)) (hp : (of p a).isPlain)
    (ha : (of p a).isQuiet) :
    x.isSignalling = false := by
  simp only [asCell?] at h
  split at h
  · rename_i e
    subst e
    cases h
    simpa [isQuiet] using ha
  · rename_i hne
    cases hc : conversion p .float32 with
    | error e => simp [hc, Except.toOption] at h
    | ok r =>
      simp only [hc, Except.toOption, Option.bind_some] at h
      have hr : Conversion.toFloating? .single .float32 p = some (.ok r) := by
        have hc := conversion?_of_ok hc
        cases p with
        | scalar t => cases t with
          | null => exact Empty.elim a
          | float32 => exact absurd rfl hne
          | _ => exact hc
        | dictionary => cases hp
        | _ => exact hc
      have hq := Conversion.isQuiet_toFloating? hr a
      cases ho : r a with
      | ok y =>
        simp only [ho, Outcome.lenient, Option.some.injEq] at h
        rw [← h]
        exact hq y ho
      | lossy e => simp [ho, Outcome.lenient] at h
      | broken e => simp [ho, Outcome.lenient] at h

theorem isQuiet_float32 {x : Floating .single} (h : x.isSignalling = false) :
    (of .float32 x).isQuiet := by
  simp [isQuiet, h]

theorem asCell?_unpackable {k : IntType} {p t : DataType} {a : p.Carrier} {c : Option t.Carrier}
    (ht : Conversion.packedAs? t = none) (hp : p.isDictionary = false) :
    (of p a).asCell? (.dictionary k t) ≠ some c := by
  have hne : p ≠ .dictionary k t := by
    rintro rfl
    cases hp
  have hf (h : conversion? p (.dictionary k t) = Conversion.fromFlat? p (.dictionary k t)) :
      conversion? p (.dictionary k t) = none ∨
        conversion? p (.dictionary k t) = some (.error (.unpackable t)) := by
    rw [h]
    simp only [Conversion.fromFlat?, ht]
    cases Conversion.fromFlat? p t with
    | none => exact .inl rfl
    | some r => exact .inr rfl
  have hc : conversion? p (.dictionary k t) = none ∨
      conversion? p (.dictionary k t) = some (.error (.unpackable t)) := by
    cases p with
    | scalar s => cases s with
      | null => exact Empty.elim a
      | _ => exact hf rfl
    | dictionary => cases hp
    | _ => exact hf rfl
  rcases hc with hc | hc <;> simp [asCell?, hne, conversion, hc, Except.toOption]

theorem isQuiet_cast? {t : DataType} {v w : Value} (h : v.cast? t = some w) (hp : v.isPlain)
    (hv : v.isQuiet) : w.isQuiet := by
  obtain ⟨c, hc, rfl⟩ := Option.map_eq_some_iff.1 h
  by_cases ht : t.plain = .float32
  · cases v with
    | null =>
      cases hc
      rfl
    | of p a =>
      cases c with
      | none => rfl
      | some x =>
        cases t with
        | scalar t =>
          cases ht
          exact isQuiet_float32 (isQuiet_asCell?_float32 hc hp hv)
        | dictionary k t =>
          have hd : p.isDictionary = false := by simpa [isPlain] using hp
          cases t with
          | scalar t =>
            cases ht
            rw [asCell?_dictionary a rfl hd] at hc
            exact isQuiet_float32 (isQuiet_asCell?_float32 hc hp hv)
          | dictionary k' t => exact absurd hc (asCell?_unpackable rfl hd)
          | _ => cases ht
        | _ => cases ht
  · exact isQuiet_ofCell_of_ne ht c

end Value

end TableScan
