import TableScan.Proofs.Agreement

namespace TableScan

namespace Expr

open Operand

variable {b : Batch} {e s x y x' y' : Expr} {v v₁ v₂ w w₁ w₂ : Operand} {set : List Scalar}

/-- Whether the casts in an expression can be made, over a batch, of what is there to be cast. -/
def CastsOn (b : Batch) (e : Expr) : Prop :=
  ∀ c ∈ e.casts, ∀ v, c.1.operand b = .ok v → ∃ w, v.castTo c.2 = .ok w

theorem CastsOn.mono (h : s.CastsOn b) (hc : ∀ c ∈ e.casts, c ∈ s.casts) :
    e.CastsOn b := fun c hm => h c (hc c hm)

def BecomesSingle (b : Batch) (e : Expr) : Prop :=
  ∃ c s a, e.operand b = .ok (.column c) ∧ e.fold = .ok s ∧ s.operand b = .ok (.scalar a)

/--
Whether casts of columns, and comparisons behind them, do the same once folding makes single values
of the columns: what is cast to single precision is not compared with signalling NaNs, and what is
in a dictionary is not repacked into another.
-/
structure CastsAlike (b : Batch) (e : Expr) : Prop where
  quiet : (∀ c ∈ e.casts, c.2.plain = .float32 → ¬c.1.BecomesSingle b) ∨ e.isQuiet
  packed : ∀ c ∈ e.casts, c.1.BecomesSingle b → c.1.isEncoded b.schema → c.2.isRepacked = false

theorem CastsAlike.part (h : e.CastsAlike b) (hc : ∀ c ∈ x.casts, c ∈ e.casts)
    (hq : e.isQuiet → x.isQuiet) :
    x.CastsAlike b :=
  ⟨h.quiet.imp (fun hn c hm => hn c (hc c hm)) hq, fun c hm => h.packed c (hc c hm)⟩

theorem CastsAlike.left (h : e.CastsAlike b) (hc : e.casts = x.casts ++ y.casts)
    (hq : e.isQuiet = (x.isQuiet && y.isQuiet)) : x.CastsAlike b :=
  h.part (fun _ hm => hc ▸ List.mem_append_left _ hm) fun h => (Bool.and_eq_true_iff.1 (hq ▸ h)).1

theorem CastsAlike.right (h : e.CastsAlike b) (hc : e.casts = x.casts ++ y.casts)
    (hq : e.isQuiet = (x.isQuiet && y.isQuiet)) : y.CastsAlike b :=
  h.part (fun _ hm => hc ▸ List.mem_append_right _ hm) fun h => (Bool.and_eq_true_iff.1 (hq ▸ h)).2

theorem castsAlike_of_casts (h : e.casts = []) : e.CastsAlike b := by
  constructor
  · exact .inl (by rw [h]; nofun)
  · rw [h]
    nofun

/-- The values over a batch of an expression and of what folding leaves of it. -/
structure Folded (b : Batch) (e s : Expr) (v w : Operand) : Prop where
  fold : e.fold = .ok s
  value : e.operand b = .ok v
  left : s.operand b = .ok w
  agrees : v.Agrees w
  kind : e.CastsAlike b → 0 < b.rows → w = v ∨ v.type = .boolean ∨
    (¬v.IsSingle ∧ ∃ a, w = .scalar a ∧ ∃ c ∈ e.casts, c.1.BecomesSingle b ∧ a.dataType = c.2.plain)
  same : e.CastsAlike b → v.Same b.rows w

namespace Folded

theorem fills (h : Folded b e s v w) : v.Fills b.rows := fills_operand h.value

theorem refl (hf : e.fold = .ok e) (h : e.operand b = .ok v) : Folded b e e v v :=
  ⟨hf, h, h, .refl v, fun _ _ => .inl rfl, fun _ => .refl v⟩

theorem of_boolean (hf : e.fold = .ok s) (hv : e.operand b = .ok v) (hw : s.operand b = .ok w)
    (ht : v.type = .boolean) (ha : v.Agrees w) (hs : e.CastsAlike b → v.Same b.rows w) :
    Folded b e s v w :=
  ⟨hf, hv, hw, ha, fun _ _ => .inr (.inl ht), hs⟩

theorem isQuiet (h : Folded b e s v w) (hq : e.isQuiet) : v.isQuiet ∧ w.isQuiet :=
  ⟨isQuiet_operand h.value hq, isQuiet_operand h.left (isQuiet_fold h.fold hq)⟩

theorem ne_float32 (h : Folded b e s v w) (hs : e.CastsAlike b) (hrows : 0 < b.rows)
    (hc : ∀ c ∈ e.casts, c.2.plain = .float32 → ¬c.1.BecomesSingle b) :
    w = v ∨ ((∀ a, v = .scalar a → a.dataType ≠ .float32) ∧ ∀ a, w = .scalar a →
      a.dataType ≠ .float32) := by
  obtain hw | hv | ⟨hsingle, a, rfl, c, hmem, hbecomes, ha⟩ := h.kind hs hrows
  · exact .inl hw
  · refine .inr ⟨?_, ?_⟩
    · rintro a rfl he
      cases he.symm.trans hv
    · rintro a rfl he
      have ht := h.agrees.isTruthType (by rw [hv]; rfl)
      rw [show (Operand.scalar a).type = .float32 from he] at ht
      cases ht
  · refine .inr ⟨?_, ?_⟩
    · rintro a rfl
      exact absurd trivial hsingle
    · rintro _ ⟨⟩ he
      exact hc c hmem (ha.symm.trans he) hbecomes

theorem calm {op : Comparison} (h₁ : Folded b x x' v₁ w₁) (h₂ : Folded b y y' v₂ w₂)
    (hs : (Expr.compare op x y).CastsAlike b) (hrows : 0 < b.rows) :
    (w₁ = v₁ ∧ w₂ = v₂) ∨ (v₁.Calm v₂ ∧ w₁.Calm w₂) := by
  have hx : x.CastsAlike b := hs.left rfl rfl
  have hy : y.CastsAlike b := hs.right rfl rfl
  rcases hs.quiet with hc | hq
  · rw [casts, List.forall_mem_append] at hc
    obtain hw₁ | ⟨hv, hw⟩ := h₁.ne_float32 hx hrows hc.1
    · obtain hw₂ | ⟨hv, hw⟩ := h₂.ne_float32 hy hrows hc.2
      · exact .inl ⟨hw₁, hw₂⟩
      · exact .inr ⟨calm_of_ne (.inr hv), calm_of_ne (.inr hw)⟩
    · exact .inr ⟨calm_of_ne (.inl hv), calm_of_ne (.inl hw)⟩
  · obtain ⟨hv₁, hw₁⟩ := h₁.isQuiet (Bool.and_eq_true_iff.1 hq).1
    obtain ⟨hv₂, hw₂⟩ := h₂.isQuiet (Bool.and_eq_true_iff.1 hq).2
    exact .inr ⟨calm_of_isQuiet hv₁ hv₂, calm_of_isQuiet hw₁ hw₂⟩

theorem calm_member (h : Folded b x x' v₁ w₁) (hs : (Expr.member x set).CastsAlike b)
    (hrows : 0 < b.rows) :
    w₁ = v₁ ∨ ∀ s ∈ set, v₁.Calm (.scalar s) ∧ w₁.Calm (.scalar s) := by
  rcases hs.quiet with hc | hq
  · have hx : x.CastsAlike b := hs.part (fun _ hc => hc) fun hq => (Bool.and_eq_true_iff.1 hq).1
    obtain hw₁ | ⟨hv, hw⟩ := h.ne_float32 hx hrows hc
    · exact .inl hw₁
    · exact .inr fun s _ => ⟨calm_of_ne (.inl hv), calm_of_ne (.inl hw)⟩
  · obtain ⟨hx, hset⟩ := Bool.and_eq_true_iff.1 hq
    obtain ⟨hv, hw⟩ := h.isQuiet hx
    rw [List.all_eq_true] at hset
    exact .inr fun s hmem => ⟨calm_of_isQuiet hv (hset s hmem), calm_of_isQuiet hw (hset s hmem)⟩

theorem compareWith {op : Comparison} (h₁ : Folded b x x' v₁ w₁) (h₂ : Folded b y y' v₂ w₂)
    (hv : Operand.compareWith op b.rows v₁ v₂ = .ok v) :
    ∃ w, Operand.compareWith op b.rows w₁ w₂ = .ok w ∧
      v.Agrees w ∧ ((Expr.compare op x y).CastsAlike b → v.Same b.rows w) := by
  obtain ⟨w, hw, ha⟩ := h₁.agrees.compareWith h₂.agrees hv b.rows
  refine ⟨w, hw, ha, fun hs i hi => ?_⟩
  obtain ⟨rfl, rfl⟩ | ⟨cv, cw⟩ := h₁.calm h₂ hs (Nat.zero_lt_of_lt hi)
  · cases hv.symm.trans hw
    rfl
  · exact (h₁.same (hs.left rfl rfl)).compareWith
      (h₂.same (hs.right rfl rfl)) h₁.fills h₂.fills hv hw cv cw i hi

theorem memberOf (h : Folded b x x' v₁ w₁) (hv : Expr.memberOf v₁ b.rows set = .ok v) :
    ∃ w, Expr.memberOf w₁ b.rows set = .ok w ∧ v.Agrees w ∧
      ((Expr.member x set).CastsAlike b → v.Same b.rows w) := by
  obtain ⟨w, hw, ha⟩ := h.agrees.memberOf hv b.rows
  refine ⟨w, hw, ha, fun hs i hi => ?_⟩
  obtain rfl | hcalm := h.calm_member hs (Nat.zero_lt_of_lt hi)
  · cases hv.symm.trans hw
    rfl
  · have hx : x.CastsAlike b := hs.part (fun _ hc => hc) fun hq => (Bool.and_eq_true_iff.1 hq).1
    exact (h.same hx).memberOf h.fills hv hw (fun s hm => (hcalm s hm).1)
      (fun s hm => (hcalm s hm).2) i hi

end Folded

theorem operand_simplifyComparison {op : Comparison}
    (h : simplifyComparison (fun _ => Facts.none_) op x y = .ok s) :
    s.operand b = (compare op x y).operand b ∧ ∀ c ∈ x.casts ++ y.casts, c ∈ s.casts := by
  unfold simplifyComparison at h
  split at h
  · rename_i a c
    obtain ⟨o, ho, h⟩ := bind_eq_ok.1 h
    cases h
    have hcompare : Operand.compareWith op b.rows (.scalar a) (.scalar c) =
        .ok (.scalar (.ofTruth (o.map op.holds))) := bind_eq_ok.2 ⟨o, ho, rfl⟩
    exact ⟨hcompare.symm, nofun⟩
  · simp only [Facts.Holds.decide_none] at h
    cases h
    exact ⟨rfl, nofun⟩
  · simp only [Facts.Holds.decide_none] at h
    cases h
    exact ⟨rfl, nofun⟩
  · cases h
    exact ⟨rfl, fun c hc => hc⟩

theorem operand_simplifyNot (h : simplifyNot x = .ok s) :
    s.operand b = (not x).operand b ∧ ∀ c ∈ x.casts, c ∈ s.casts := by
  unfold simplifyNot at h
  split at h
  · rename_i a
    obtain ⟨t, ht, h⟩ := bind_eq_ok.1 h
    cases h
    have hnegate : Operand.negate b.rows (.scalar a) = .ok (.scalar (.ofTruth (kleeneNot t))) :=
      bind_eq_ok.2 ⟨t, ht, rfl⟩
    exact ⟨hnegate.symm, nofun⟩
  · cases h
    exact ⟨rfl, fun c hc => hc⟩

theorem operand_simplifyValid :
    (simplifyValid (fun _ => Facts.none_) x).operand b = (isValid x).operand b ∧
    ∀ c ∈ x.casts, c ∈ (simplifyValid (fun _ => Facts.none_) x).casts := by
  unfold simplifyValid
  split
  · exact ⟨rfl, nofun⟩
  · exact ⟨rfl, nofun⟩
  · exact ⟨rfl, fun c hc => hc⟩

theorem operand_simplifyCast {t : DataType} (h : simplifyCast t x = .ok s) (hc : s.CastsOn b)
    (hw : x.operand b = .ok w₁) : ∃ w, w₁.castTo t = .ok w ∧ s.operand b = .ok w := by
  unfold simplifyCast at h
  split at h
  · rename_i a
    obtain ⟨a', ha, h⟩ := bind_eq_ok.1 h
    cases h
    cases hw
    exact ⟨.scalar a', bind_eq_ok.2 ⟨a', ha, rfl⟩, rfl⟩
  · cases h
    obtain ⟨w, h⟩ := hc (x, t) (mem_casts_cast x t) w₁ hw
    exact ⟨w, h, by rw [operand_cast, hw]; exact h⟩

theorem casts_simplifyCast {t : DataType} (h : simplifyCast t x = .ok s) :
    ∀ c ∈ x.casts, c ∈ s.casts := by
  unfold simplifyCast at h
  split at h
  · nofun
  · cases h
    exact fun c hc => List.mem_append_left _ hc

def answer (found : Option Bool) (os : List (Option Ordering)) : Option Bool :=
  os.foldl (fun found o => kleeneOr found (o.map Comparison.eq.holds)) found

theorem answer_cons (found : Option Bool) (o : Option Ordering) (os : List (Option Ordering)) :
    answer found (o :: os) = answer (kleeneOr found (o.map Comparison.eq.holds)) os := rfl

theorem kleeneOr_true (t : Option Bool) : kleeneOr (some true) t = some true := by
  rcases t with _ | (_ | _) <;> rfl

theorem false_kleeneOr (t : Option Bool) : kleeneOr (some false) t = t := by
  rcases t with _ | (_ | _) <;> rfl

theorem answer_true (os : List (Option Ordering)) : answer (some true) os = some true := by
  induction os with
  | nil => rfl
  | cons o os ih =>
    rw [answer_cons]
    exact (congrArg (answer · os) (kleeneOr_true _)).trans ih

theorem answer_none {os : List (Option Ordering)} (h : ∀ o ∈ os, o = none) :
    answer none os = none := by
  induction os with
  | nil => rfl
  | cons o os ih =>
    rw [List.forall_mem_cons] at h
    rw [h.1]
    exact ih h.2

theorem memberOf_scalar {rows : Nat} {a : Scalar} {u : Operand}
    (hm : memberOf (.scalar a) rows set = .ok u) :
    ∃ os, List.Forall₂ (fun c o => a.compare c = .ok o) set os ∧
      u = .scalar (.ofTruth (answer (some false) os)) := by
  have fold {set : List Scalar} {found : Option Bool} (hm : set.foldlM (fun found s => do
      Operand.combine kleeneOr rows found (← Operand.compareWith .eq rows (.scalar a) (.scalar s)))
      (Operand.scalar (.ofTruth found)) = .ok u) :
      ∃ os, List.Forall₂ (fun c o => a.compare c = .ok o) set os ∧
        u = .scalar (.ofTruth (answer found os)) := by
    induction set generalizing found with
    | nil =>
      cases hm
      exact ⟨[], .nil, rfl⟩
    | cons c set ih =>
      obtain ⟨next, hnext, hm⟩ := bind_eq_ok.1 hm
      obtain ⟨t, ht, hnext⟩ := bind_eq_ok.1 hnext
      obtain ⟨o, ho, ht⟩ := bind_eq_ok.1 ht
      cases ht
      cases hnext
      obtain ⟨os, hos, hu⟩ := ih hm
      exact ⟨o :: os, .cons (mapError_eq_ok.1 ho) hos, hu⟩
  cases set with
  | nil =>
    cases hm
    exact ⟨[], .nil, rfl⟩
  | cons c set =>
    obtain ⟨first, hfirst, hm⟩ := bind_eq_ok.1 hm
    obtain ⟨o, ho, hfirst⟩ := bind_eq_ok.1 hfirst
    cases hfirst
    obtain ⟨os, hos, hu⟩ := fold hm
    refine ⟨o :: os, .cons (mapError_eq_ok.1 ho) hos, ?_⟩
    rw [hu, answer_cons, false_kleeneOr]

theorem literalMember_answer {a : Scalar} {sawNull : Bool} {os : List (Option Ordering)}
    (hos : List.Forall₂ (fun c o => a.compare c = .ok o) set os) :
    literalMember a set sawNull =
      .ok (lit (.ofTruth (answer (if sawNull then none else some false) os))) := by
  induction hos generalizing sawNull with
  | nil => cases sawNull <;> rfl
  | @cons c o set os ho _ ih =>
    rw [literalMember, ho, answer_cons]
    rcases o with _ | (_ | _ | _)
    · exact ih.trans (by cases sawNull <;> rfl)
    · exact ih.trans (by cases sawNull <;> rfl)
    · have htrue : kleeneOr (if sawNull then none else some false) (some true) = some true := by
        cases sawNull <;> rfl
      have hall : answer (kleeneOr (if sawNull then none else some false) (some true)) os =
          some true :=
        (congrArg (answer · os) htrue).trans (answer_true os)
      exact congrArg (fun t => Except.ok (lit (.ofTruth t))) hall.symm
    · exact ih.trans (by cases sawNull <;> rfl)

theorem compare_null {a c : Scalar} {o : Option Ordering} (h : a.compare c = .ok o)
    (ha : a.isNull) : o = none := by
  obtain ⟨p, a⟩ := a
  cases a with
  | some a => cases ha
  | none =>
    unfold Scalar.compare at h
    split at h
    · cases h
    · rw [magnitude?_none] at h
      cases h
      rfl

theorem casts_simplifyMember {facts : String → Facts} (h : simplifyMember facts set x = .ok s) :
    ∀ c ∈ x.casts, c ∈ s.casts := by
  unfold simplifyMember at h
  split at h
  · nofun
  · nofun
  · cases h
    exact fun c hc => hc

theorem operand_simplifyMember (h : simplifyMember (fun _ => Facts.none_) set x = .ok s)
    (hset : set ≠ []) (hw : x.operand b = .ok w₁) (hm : memberOf w₁ b.rows set = .ok w) :
    s.operand b = .ok w := by
  have kept : (member x set).operand b = .ok w := by
    rw [operand, if_neg hset]
    exact bind_eq_ok.2 ⟨w₁, hw, hm⟩
  unfold simplifyMember at h
  split at h
  · rename_i a
    cases hw
    obtain ⟨os, hos, rfl⟩ := memberOf_scalar hm
    split at h
    · rename_i hnull
      cases h
      cases hos with
      | nil => exact absurd rfl hset
      | @cons c o set os ho hos =>
        have hnone : ∀ o ∈ os, o = none := fun o ho => by
          obtain ⟨c, -, hc⟩ := forall₂_mem hos ho
          exact compare_null hc hnull
        rw [compare_null ho hnull, answer_cons]
        exact congrArg (fun t => Except.ok (Operand.scalar (.ofTruth t))) (answer_none hnone).symm
    · rw [literalMember_answer hos] at h
      cases h
      rfl
  · dsimp only at h
    split at h
    · rename_i hc
      obtain ⟨c, -, hc⟩ := List.mem_map.1 (List.contains_iff_mem.1 hc)
      cases (Facts.Holds.decide_none _ _).symm.trans hc
    · split at h
      · rename_i ha
        obtain ⟨c, hmem⟩ := List.exists_mem_of_ne_nil set hset
        rw [List.all_map, List.all_eq_true] at ha
        cases (Facts.Holds.decide_none _ _).symm.trans (eq_of_beq (ha c hmem))
      · cases h
        exact kept
  · cases h
    exact kept

section Connectives

variable {z : Bool} {g : Option Bool → Option Bool → Option Bool}

/-- A connective that one truth value decides and the other leaves to the other side. -/
structure Absorbs (z : Bool) (g : Option Bool → Option Bool → Option Bool) : Prop where
  decided_left : ∀ t, g (some z) t = some z
  decided_right : ∀ t, g t (some z) = some z
  neutral_left : ∀ t, g (some !z) t = t
  neutral_right : ∀ t, g t (some !z) = t

theorem absorbs_kleeneAnd : Absorbs false kleeneAnd := by
  constructor <;> intro t <;> rcases t with _ | (_ | _) <;> rfl

theorem absorbs_kleeneOr : Absorbs true kleeneOr := by
  constructor <;> intro t <;> rcases t with _ | (_ | _) <;> rfl

inductive Connects (z : Bool) (g : Option Bool → Option Bool → Option Bool) (x y : Expr) :
    Expr → Prop
  | absorbed : x = ofBool z ∨ y = ofBool z → Connects z g x y (ofBool z)
  | left : y = ofBool (!z) → Connects z g x y x
  | right : x = ofBool (!z) → Connects z g x y y
  | both {s : Expr} :
      (∀ b : Batch, s.operand b = do Operand.combine g b.rows (← x.operand b) (← y.operand b)) →
      (∀ c ∈ x.casts ++ y.casts, c ∈ s.casts) → Connects z g x y s

theorem combine_scalars {a c : Scalar} {s t : Option Bool} (rows : Nat) (ha : a.truth = .ok s)
    (hc : c.truth = .ok t) :
    Operand.combine g rows (.scalar a) (.scalar c) = .ok (.scalar (.ofTruth (g s t))) :=
  bind_eq_ok.2 ⟨s, mapError_eq_ok.2 ha, bind_eq_ok.2 ⟨t, mapError_eq_ok.2 hc, rfl⟩⟩

theorem Joined.connects {join : Expr → Expr → Expr} (h : Joined z g join x y s)
    (hjoin : ∀ b : Batch,
      (join x y).operand b = do Operand.combine g b.rows (← x.operand b) (← y.operand b))
    (hcasts : (join x y).casts = x.casts ++ y.casts) : Connects z g x y s := by
  cases h with
  | absorbed hz => exact .absorbed hz
  | left hz => exact .left hz
  | right hz => exact .right hz
  | lits hx hy hs ht =>
    subst hx hy
    exact .both (fun b => (combine_scalars b.rows hs ht).symm) nofun
  | kept => exact .both hjoin fun c hc => hcasts ▸ hc

theorem connects_simplifyAnd (h : simplifyAnd x y = .ok s) : Connects false kleeneAnd x y s :=
  (joined_simplifyAnd h).connects (fun _ => rfl) rfl

theorem connects_simplifyOr (h : simplifyOr x y = .ok s) : Connects true kleeneOr x y s :=
  (joined_simplifyOr h).connects (fun _ => rfl) rfl

theorem castsOn_ofBool (b : Batch) (t : Bool) : (ofBool t).CastsOn b := nofun

theorem Folded.eq_ofBool {t : Bool} (h : Folded b x (ofBool t) v w) : w = .scalar (.ofBool t) := by
  cases h.left
  rfl

theorem Folded.eq_some {t : Bool} {r : Option Bool} {i : Nat} (h : Folded b x (ofBool t) v w)
    (hs : x.CastsAlike b) (hi : i < b.rows) (hr : v.at? i = some (Value.ofTruth r)) :
    r = some t := by
  have hrow := h.same hs i hi
  rw [h.eq_ofBool] at hrow
  exact Value.ofTruth_injective (Option.some.inj (hr.symm.trans hrow))

theorem Connects.folded (hg : Absorbs z g) (hs : Connects z g x' y' s) (hc : s.CastsOn b)
    (hx : x'.CastsOn b → ∃ w, Folded b x x' v₁ w) (hy : y'.CastsOn b → ∃ w, Folded b y y' v₂ w)
    (f₁ : v₁.Fills b.rows) (f₂ : v₂.Fills b.rows) (hv : Operand.combine g b.rows v₁ v₂ = .ok v) :
    ∃ w, s.operand b = .ok w ∧ v.Agrees w ∧
      (x.CastsAlike b → y.CastsAlike b → v.Same b.rows w) := by
  have ht : v.type = .boolean := type_combine hv
  have htruth := isTruthType_of_combine hv
  have hsingle := single_combine hv
  -- a side that folding drops is known by the truth value that it has become
  cases hs with
  | absorbed hz =>
    refine ⟨.scalar (.ofBool z), rfl, .of_isTruthType ht rfl fun _ => trivial, fun cx cy i hi => ?_⟩
    obtain ⟨r, t, hr, ht, hu⟩ := combine_row hv f₁ f₂ hi
    refine hu.trans (congrArg (fun t => some (Value.ofTruth t)) ?_)
    obtain rfl | rfl := hz
    · obtain ⟨w₁, h₁⟩ := hx (castsOn_ofBool b z)
      rw [h₁.eq_some cx hi hr, hg.decided_left]
      rfl
    · obtain ⟨w₂, h₂⟩ := hy (castsOn_ofBool b z)
      rw [h₂.eq_some cy hi ht, hg.decided_right]
      rfl
  | left hz =>
    subst hz
    obtain ⟨w₁, h₁⟩ := hx hc
    obtain ⟨w₂, h₂⟩ := hy (castsOn_ofBool b !z)
    refine ⟨w₁, h₁.left, .of_isTruthType ht (h₁.agrees.isTruthType htruth.1) fun hs => ?_,
      fun cx cy i hi => ?_⟩
    · exact h₁.agrees.single (hsingle.1 hs).1
    · obtain ⟨r, t, hr, ht, hu⟩ := combine_row hv f₁ f₂ hi
      rw [hu, h₂.eq_some cy hi ht, hg.neutral_right, ← hr]
      exact h₁.same cx i hi
  | right hz =>
    subst hz
    obtain ⟨w₁, h₁⟩ := hx (castsOn_ofBool b !z)
    obtain ⟨w₂, h₂⟩ := hy hc
    refine ⟨w₂, h₂.left, .of_isTruthType ht (h₂.agrees.isTruthType htruth.2) fun hs => ?_,
      fun cx cy i hi => ?_⟩
    · exact h₂.agrees.single (hsingle.1 hs).2
    · obtain ⟨r, t, hr, ht, hu⟩ := combine_row hv f₁ f₂ hi
      rw [hu, h₁.eq_some cx hi hr, hg.neutral_left, ← ht]
      exact h₂.same cy i hi
  | both hs hcasts =>
    obtain ⟨w₁, h₁⟩ := hx (hc.mono fun c hm => hcasts c (List.mem_append_left _ hm))
    obtain ⟨w₂, h₂⟩ := hy (hc.mono fun c hm => hcasts c (List.mem_append_right _ hm))
    obtain ⟨w, hw, ha⟩ := h₁.agrees.combine h₂.agrees hv b.rows
    refine ⟨w, ?_, ha, fun cx cy => (h₁.same cx).combine (h₂.same cy) f₁ f₂ hv hw⟩
    rw [hs, h₁.left, h₂.left]
    exact hw

end Connectives

theorem Folded.castTo {t : DataType} (h : Folded b x x' v₁ w₁) (hv : v₁.castTo t = .ok v)
    (hw : w₁.castTo t = .ok w) (hs : (Expr.cast x t).CastsAlike b) (hrows : 0 < b.rows) :
    v.Same b.rows w ∧
    (w = v ∨ (¬v.IsSingle ∧ ∃ a, w = .scalar a ∧ x.BecomesSingle b ∧ a.dataType = t.plain)) := by
  have hx : x.CastsAlike b := hs.part (fun _ => List.mem_append_left _) id
  have hmem := mem_casts_cast x t
  obtain rfl | hne := h.kind hx hrows
  · cases hv.symm.trans hw
    exact ⟨.refl v, .inl rfl⟩
  -- what is in a dictionary has become a single value
  have pv (hd : v₁.type.isDictionary = true) : t.isRepacked = false := by
    obtain hb | ⟨hsingle, a, rfl, -⟩ := hne
    · rw [hb] at hd
      cases hd
    · cases v₁ with
      | scalar => exact absurd trivial hsingle
      | column c =>
        exact hs.packed _ hmem ⟨c, x', a, h.value, h.fold, h.left⟩ (isEncoded_of_operand h.value hd)
  have pw (hd : w₁.type.isDictionary = true) : t.isRepacked = false := by
    obtain ht | ⟨-, ht⟩ | ⟨-, ht⟩ := h.agrees.type
    · exact pv (ht ▸ hd)
    · rw [ht, DataType.not_isDictionary_plain] at hd
      cases hd
    · rw [ht] at hd
      cases hd
  have hsame : v.Same b.rows w := (h.same hx).castTo h.fills hv hw pv pw
  refine ⟨hsame, ?_⟩
  have fv : v.Fills b.rows := h.fills.castTo hv
  have fw : w.Fills b.rows := (fills_operand h.left).castTo hw
  cases w₁ with
  | scalar a =>
    obtain ⟨a', ha, hw⟩ := bind_eq_ok.1 hw
    cases hw
    have ht : a'.dataType = t.plain := Scalar.dataType_castTo ha
    cases v₁ with
    | scalar c =>
      obtain ⟨c', hc, hv⟩ := bind_eq_ok.1 hv
      cases hv
      exact .inl (congrArg Operand.scalar
        (hsame.eq_scalar hrows (ht.trans (Scalar.dataType_castTo hc).symm)))
    | column c =>
      obtain ⟨c', -, hv⟩ := bind_eq_ok.1 hv
      cases hv
      exact .inr ⟨id, a', rfl, ⟨c, x', a, h.value, h.fold, h.left⟩, ht⟩
  | column d => cases v₁ with
    | scalar a => exact (h.agrees.single trivial).elim
    | column c =>
      obtain ⟨c', hc', hv⟩ := bind_eq_ok.1 hv
      obtain ⟨d', hd', hw⟩ := bind_eq_ok.1 hw
      cases hv
      cases hw
      refine .inl (congrArg Operand.column (hsame.eq fv fw ?_))
      exact (Column.type_cast (mapError_eq_ok.1 hd')).trans
        (Column.type_cast (mapError_eq_ok.1 hc')).symm

theorem folded_of_fold (hv : e.operand b = .ok v) (hf : e.fold = .ok s) (hc : s.CastsOn b) :
    ∃ w, Folded b e s v w := by
  -- types agree whatever the casts do; that values do is carried under the condition that they do
  -- alike
  induction e generalizing v s with
  | field n | lit a =>
    cases hf
    exact ⟨v, .refl rfl hv⟩
  | compare op x y ihx ihy =>
    obtain ⟨v₁, hv₁, h⟩ := bind_eq_ok.1 hv
    obtain ⟨v₂, hv₂, h⟩ := bind_eq_ok.1 h
    obtain ⟨x', hx, hs⟩ := bind_eq_ok.1 hf
    obtain ⟨y', hy, hs⟩ := bind_eq_ok.1 hs
    obtain ⟨hoperand, hcasts⟩ := operand_simplifyComparison (b := b) hs
    obtain ⟨w₁, h₁⟩ := ihx hv₁ hx (hc.mono fun c hm => hcasts c (List.mem_append_left _ hm))
    obtain ⟨w₂, h₂⟩ := ihy hv₂ hy (hc.mono fun c hm => hcasts c (List.mem_append_right _ hm))
    obtain ⟨w, hw, ha, hsame⟩ := h₁.compareWith h₂ h
    refine ⟨w, .of_boolean hf hv ?_ (type_compareWith h) ha hsame⟩
    rw [hoperand]
    exact bind_eq_ok.2 ⟨w₁, h₁.left, bind_eq_ok.2 ⟨w₂, h₂.left, hw⟩⟩
  | and x y ihx ihy =>
    obtain ⟨v₁, hv₁, h⟩ := bind_eq_ok.1 hv
    obtain ⟨v₂, hv₂, h⟩ := bind_eq_ok.1 h
    obtain ⟨x', hx, hs⟩ := bind_eq_ok.1 hf
    obtain ⟨y', hy, hs⟩ := bind_eq_ok.1 hs
    obtain ⟨w, hw, ha, hsame⟩ :=
      (connects_simplifyAnd hs).folded absorbs_kleeneAnd hc (ihx hv₁ hx) (ihy hv₂ hy)
      (fills_operand hv₁) (fills_operand hv₂) h
    exact ⟨w, .of_boolean hf hv hw (type_combine h) ha fun hs =>
      hsame (hs.left rfl rfl) (hs.right rfl rfl)⟩
  | or x y ihx ihy =>
    obtain ⟨v₁, hv₁, h⟩ := bind_eq_ok.1 hv
    obtain ⟨v₂, hv₂, h⟩ := bind_eq_ok.1 h
    obtain ⟨x', hx, hs⟩ := bind_eq_ok.1 hf
    obtain ⟨y', hy, hs⟩ := bind_eq_ok.1 hs
    obtain ⟨w, hw, ha, hsame⟩ :=
      (connects_simplifyOr hs).folded absorbs_kleeneOr hc (ihx hv₁ hx) (ihy hv₂ hy)
      (fills_operand hv₁) (fills_operand hv₂) h
    exact ⟨w, .of_boolean hf hv hw (type_combine h) ha fun hs =>
      hsame (hs.left rfl rfl) (hs.right rfl rfl)⟩
  | not x ih =>
    obtain ⟨v₁, hv₁, h⟩ := bind_eq_ok.1 (operand_not b x ▸ hv)
    obtain ⟨x', hx, hs⟩ := bind_eq_ok.1 hf
    obtain ⟨hoperand, hcasts⟩ := operand_simplifyNot (b := b) hs
    obtain ⟨w₁, h₁⟩ := ih hv₁ hx (hc.mono hcasts)
    obtain ⟨w, hw, ha⟩ := h₁.agrees.negate h b.rows
    refine ⟨w, .of_boolean hf hv ?_ (type_negate h) ha fun hs => ?_⟩
    · rw [hoperand, operand_not, h₁.left]
      exact hw
    · exact (h₁.same (hs.part (fun _ hc => hc) id)).negate h₁.fills h hw
  | isValid x ih =>
    obtain ⟨v₁, hv₁, h⟩ := bind_eq_ok.1 (operand_isValid b x ▸ hv)
    obtain ⟨x', hx, hs⟩ := bind_eq_ok.1 hf
    cases h
    cases hs
    obtain ⟨hoperand, hcasts⟩ := operand_simplifyValid (b := b) (x := x')
    obtain ⟨w₁, h₁⟩ := ih hv₁ hx (hc.mono hcasts)
    refine ⟨_, .of_boolean hf hv ?_ (type_validity v₁) h₁.agrees.validity fun hs => ?_⟩
    · rw [hoperand, operand_isValid, h₁.left]
      rfl
    · exact (h₁.same (hs.part (fun _ hc => hc) id)).validity h₁.fills
  | member x set ih =>
    by_cases hset : set = []
    · subst hset
      cases hf
      cases hv
      exact ⟨_, .of_boolean rfl rfl rfl rfl (.refl _) fun _ => .refl _⟩
    · have h := hv
      have hs := hf
      rw [operand, if_neg hset] at h
      rw [fold, simplifyWith, if_neg hset] at hs
      obtain ⟨v₁, hv₁, h⟩ := bind_eq_ok.1 h
      obtain ⟨x', hx, hs⟩ := bind_eq_ok.1 hs
      obtain ⟨w₁, h₁⟩ := ih hv₁ hx (hc.mono (casts_simplifyMember hs))
      obtain ⟨w, hw, ha, hsame⟩ := h₁.memberOf h
      exact ⟨w, .of_boolean hf hv (operand_simplifyMember hs hset h₁.left hw)
        (type_memberOf h) ha hsame⟩
  | cast x t ih =>
    obtain ⟨v₁, hv₁, h⟩ := bind_eq_ok.1 (operand_cast b x t ▸ hv)
    obtain ⟨x', hx, hs⟩ := bind_eq_ok.1 hf
    obtain ⟨w₁, h₁⟩ := ih hv₁ hx (hc.mono (casts_simplifyCast hs))
    obtain ⟨w, hw, hleft⟩ := operand_simplifyCast hs hc h₁.left
    refine ⟨w, hf, hv, hleft, h₁.agrees.castTo h hw, fun ha hrows => ?_, fun ha i hi => ?_⟩
    · obtain hw | ⟨hsingle, a, rfl, hbecomes, ht⟩ := (h₁.castTo h hw ha hrows).2
      · exact .inl hw
      · exact .inr (.inr ⟨hsingle, a, rfl, _, mem_casts_cast _ _, hbecomes, ht⟩)
    · exact (h₁.castTo h hw ha (Nat.zero_lt_of_lt hi)).1 i hi

theorem literalsFit_of_operand (hv : e.operand b = .ok v) : e.LiteralsFit fun _ => Facts.none_ := by
  -- a constant that is left of a part agrees with what the part has
  have left {x : Expr} {v : Operand} (hv : x.operand b = .ok v) (a : Scalar)
      (hx : x.fold = .ok (.lit a)) :
      v.Agrees (.scalar a) := by
    obtain ⟨w, h⟩ := folded_of_fold hv hx nofun
    cases h.left
    exact h.agrees
  induction e generalizing v with
  | field | lit => trivial
  | compare op x y ihx ihy =>
    obtain ⟨v₁, hv₁, h⟩ := bind_eq_ok.1 hv
    obtain ⟨v₂, hv₂, h⟩ := bind_eq_ok.1 h
    refine ⟨ihx hv₁, ihy hv₂, fun a c ha hc => ?_⟩
    obtain ⟨w, hw, -⟩ := (left hv₁ a ha).compareWith (left hv₂ c hc) h b.rows
    exact (comparable_of_compareWith hw).isSome
  | and x y ihx ihy | or x y ihx ihy =>
    obtain ⟨v₁, hv₁, h⟩ := bind_eq_ok.1 hv
    obtain ⟨v₂, hv₂, h⟩ := bind_eq_ok.1 h
    obtain ⟨ht₁, ht₂⟩ := isTruthType_of_combine h
    exact ⟨ihx hv₁, ihy hv₂, fun a ha => (left hv₁ a ha).isTruthType ht₁,
      fun c hc => (left hv₂ c hc).isTruthType ht₂⟩
  | not x ih =>
    obtain ⟨v₁, hv₁, h⟩ := bind_eq_ok.1 (operand_not b x ▸ hv)
    exact ⟨ih hv₁, fun a ha => (left hv₁ a ha).isTruthType (isTruthType_of_negate h)⟩
  | isValid x ih =>
    obtain ⟨v₁, hv₁, -⟩ := bind_eq_ok.1 (operand_isValid b x ▸ hv)
    exact ih hv₁
  | member x set ih =>
    intro hset
    rw [operand, if_neg hset] at hv
    obtain ⟨v₁, hv₁, h⟩ := bind_eq_ok.1 hv
    refine ⟨ih hv₁, fun a ha c hc => ?_⟩
    obtain ⟨w, hw, -⟩ := (left hv₁ a ha).memberOf h b.rows
    obtain ⟨os, hos, -⟩ := memberOf_scalar hw
    obtain ⟨o, -, ho⟩ := forall₂_mem hos.flip hc
    have hcompare : Operand.compareWith .eq b.rows (.scalar a) (.scalar c) =
        .ok (.scalar (.ofTruth (o.map Comparison.eq.holds))) :=
        bind_eq_ok.2 ⟨o, mapError_eq_ok.2 ho, rfl⟩
    exact (comparable_of_compareWith hcompare).isSome
  | cast x t ih =>
    obtain ⟨v₁, hv₁, -⟩ := bind_eq_ok.1 (operand_cast b x t ▸ hv)
    exact ih hv₁

theorem castFails_of_fold {f : Failure} (hv : e.operand b = .ok v) (hf : e.fold = .error f) :
    CastFails (fun _ => Facts.none_) e f :=
  (literalsFit_of_operand hv).castFails hf

theorem Simplified.casts_eq_nil {facts : String → Facts} (h : Simplified facts e s)
    (he : e.casts = []) :
    s.casts = [] := by
  induction h with
  | compare _ _ iha ihb | and _ _ iha ihb | or _ _ iha ihb =>
    obtain ⟨ha, hb⟩ := List.append_eq_nil_iff.1 he
    exact List.append_eq_nil_iff.2 ⟨iha ha, ihb hb⟩
  | andTrueLeft _ _ _ ih | orFalseLeft _ _ _ ih => exact ih (List.append_eq_nil_iff.1 he).2
  | andTrueRight _ _ ih | orFalseRight _ _ ih => exact ih (List.append_eq_nil_iff.1 he).1
  | not _ ih | isValid _ ih | member _ ih => exact ih he
  | memberLit _ _ hu =>
    obtain ⟨r, rfl, -⟩ := literalMember_spec hu
    rfl
  | cast => exact absurd (List.append_eq_nil_iff.1 he).2 nofun
  | _ => rfl

/--
Folding keeps masks. An expression without casts that has a mask can be folded, and what is left of
it has the same mask. With casts, what is left has the same mask if its own casts can be made: those
of single values that folding makes of columns are strict, and have to do what those of the columns
did.
-/
theorem mask_fold {m : List (Option Bool)} (h : e.mask b = .ok m) :
    (e.casts = [] → ∃ s, e.fold = .ok s ∧ s.mask b = .ok m) ∧
      ∀ s, e.fold = .ok s → s.CastsOn b → e.CastsAlike b → s.mask b = .ok m := by
  obtain ⟨v, hv, hm⟩ := bind_eq_ok.1 h
  have kept (s : Expr) (hs : e.fold = .ok s) (hc : s.CastsOn b) (ha : e.CastsAlike b) :
      s.mask b = .ok m := by
    obtain ⟨w, hw⟩ := folded_of_fold hv hs hc
    obtain ⟨ts, hts⟩ : ∃ ts, w.truths b.rows = .ok ts :=
      truths_of_isTruthType (hw.agrees.isTruthType (isTruthType_of_truths hm))
    rw [← (hw.same ha).truths hw.fills (fills_operand hw.left) hm hts]
    exact bind_eq_ok.2 ⟨w, hw.left, hts⟩
  refine ⟨fun hcasts => ?_, kept⟩
  cases hs : e.fold with
  | ok s =>
    refine ⟨s, rfl, kept s hs ?_ (castsAlike_of_casts hcasts)⟩
    rw [CastsOn, (simplified_fold hs).casts_eq_nil hcasts]
    nofun
  | error f =>
    obtain ⟨hmem, -, -⟩ := castFails_of_fold hv hs
    rw [hcasts] at hmem
    cases hmem

section OneNull

open Scan (oneNull)

/-- Nulls of no type against the truth values they count as: one comparison for all rows once it is
folded. -/
def equalNulls : Expr := .compare .eq (.and true_ (.field "n")) (.field "n")

def isText : Expr := .isValid (.cast equalNulls .utf8)

theorem mask_fold_nulls : isText.mask oneNull = .ok [some false] ∧ ∃ s, isText.fold = .ok s ∧
    s ≠ isText ∧
    s.mask oneNull = .ok [some false] := by
  have hm : isText.mask oneNull = .ok [some false] := rfl
  have halike : isText.CastsAlike oneNull := by
    refine ⟨.inr rfl, fun c hc _ _ => ?_⟩
    cases List.mem_singleton.1 hc
    rfl
  refine ⟨hm, _, rfl, by decide, (mask_fold hm).2 _ rfl ?_ halike⟩
  intro c hc v hv
  cases List.mem_singleton.1 hc
  cases hv
  exact ⟨_, rfl⟩

def isNoNumeral : Expr := .not (.isValid (.cast (.cast (.isValid equalNulls) .utf8) (.int .int32)))

/-- A column of texts loses those that are no integers; the text that folding makes one of is cast
strictly. -/
theorem mask_fold_text : isNoNumeral.mask oneNull = .ok [some true] ∧
    ∃ s, isNoNumeral.fold = .ok s ∧
    s.mask oneNull =
      .error (TypeFault.cast (.ofText "false") (.int .int32) (.unreadable "false" (.int .int32))) :=
  ⟨rfl, _, rfl, rfl⟩

end OneNull

end Expr

end TableScan
