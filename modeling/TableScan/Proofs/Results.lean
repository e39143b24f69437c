import Mathlib.Data.List.Forall2

namespace TableScan

variable {ε α β γ : Type}

theorem bind_eq_ok {x : Except ε α} {f : α → Except ε β} {b : β} :
    (x >>= f) = .ok b ↔ ∃ a, x = .ok a ∧ f a = .ok b := by
  cases x with
  | error e => simp [bind, Except.bind]
  | ok a => simp [bind, Except.bind]

theorem bind_eq_error {x : Except ε α} {f : α → Except ε β} {e : ε} :
    (x >>= f) = .error e ↔ x = .error e ∨ ∃ a, x = .ok a ∧ f a = .error e := by
  cases x with
  | error e => simp [bind, Except.bind]
  | ok a => simp [bind, Except.bind]

theorem map_eq_ok {x : Except ε α} {f : α → β} {b : β} :
    x.map f = .ok b ↔ ∃ a, x = .ok a ∧ f a = b := by
  cases x <;> simp [Except.map]

theorem toOption_eq_some {x : Except ε α} {a : α} : x.toOption = some a ↔ x = .ok a := by
  cases x <;> simp [Except.toOption]

theorem mapError_eq_ok {δ : Type} {x : Except ε α} {f : ε → δ} {a : α} :
    x.mapError f = .ok a ↔ x = .ok a := by
  constructor
  · intro h
    cases x with
    | error e => cases h
    | ok b =>
      cases h
      rfl
  · rintro rfl
    rfl

theorem mapError_eq_error {δ : Type} {x : Except ε α} {f : ε → δ} {e : δ} :
    x.mapError f = .error e ↔ ∃ e', x = .error e' ∧ f e' = e := by
  constructor
  · intro h
    cases x with
    | error e' =>
      cases h
      exact ⟨e', rfl, rfl⟩
    | ok a => cases h
  · rintro ⟨_, rfl, rfl⟩
    rfl

theorem map_ok_injective : Function.Injective (List.map fun a : α => (.ok a : Except ε α)) :=
  List.map_injective_iff.2 fun _ _ => Except.ok.inj

theorem mapM_eq_ok {f : α → Except ε β} {as : List α} {bs : List β} :
    as.mapM f = .ok bs ↔ List.Forall₂ (fun a b => f a = .ok b) as bs := by
  induction as generalizing bs with
  | nil =>
    rw [List.mapM_nil, List.forall₂_nil_left_iff]
    exact ⟨fun h => (Except.ok.inj h).symm, fun h => h ▸ rfl⟩
  | cons a as ih =>
    simp only [List.mapM_cons, bind_eq_ok, List.forall₂_cons_left_iff]
    constructor
    · rintro ⟨b, hb, bs', hbs, h⟩
      cases h
      exact ⟨b, bs', hb, ih.1 hbs, rfl⟩
    · rintro ⟨b, bs', hb, hbs, rfl⟩
      exact ⟨b, hb, bs', ih.2 hbs, rfl⟩

theorem forall₂_and_eq {P : α → Prop} {f : α → β} {as : List α} {bs : List β} :
    List.Forall₂ (fun a b => P a ∧ f a = b) as bs ↔ (∀ a ∈ as, P a) ∧ as.map f = bs := by
  rw [List.forall₂_and_left, ← List.forall₂_eq_eq_eq, List.forall₂_map_left_iff]

theorem forall₂_getElem? {R : α → β → Prop} {as : List α} {bs : List β} (h : List.Forall₂ R as bs)
    {i : Nat} {a : α} (ha : as[i]? = some a) : ∃ b, bs[i]? = some b ∧ R a b := by
  induction h generalizing i with
  | nil => simp at ha
  | cons hr _ ih =>
    cases i with
    | zero =>
      cases ha
      exact ⟨_, rfl, hr⟩
    | succ i => exact ih ha

theorem filterMapM_eq_ok {f : α → Except ε (Option β)} {as : List α} {bs : List β} :
    as.filterMapM f = .ok bs ↔
      ∃ os, List.Forall₂ (fun a o => f a = .ok o) as os ∧ bs = os.filterMap id := by
  induction as generalizing bs with
  | nil =>
    simp only [List.filterMapM_nil, List.forall₂_nil_left_iff]
    exact ⟨fun h => ⟨[], rfl, (Except.ok.inj h).symm⟩, by rintro ⟨os, rfl, rfl⟩; rfl⟩
  | cons a as ih =>
    simp only [List.filterMapM_cons, bind_eq_ok, List.forall₂_cons_left_iff]
    constructor
    · rintro ⟨o, ho, h⟩
      cases o with
      | none =>
        obtain ⟨os, hos, rfl⟩ := ih.1 h
        exact ⟨none :: os, ⟨none, os, ho, hos, rfl⟩, rfl⟩
      | some b =>
        obtain ⟨bs', hbs, h⟩ := bind_eq_ok.1 h
        cases h
        obtain ⟨os, hos, rfl⟩ := ih.1 hbs
        exact ⟨some b :: os, ⟨some b, os, ho, hos, rfl⟩, rfl⟩
    · rintro ⟨_, ⟨o, os, ho, hos, rfl⟩, rfl⟩
      refine ⟨o, ho, ?_⟩
      cases o with
      | none => exact ih.2 ⟨os, hos, rfl⟩
      | some b => exact bind_eq_ok.2 ⟨_, ih.2 ⟨os, hos, rfl⟩, rfl⟩

theorem filterMapM_eq_ok_of {f : α → Except ε (Option β)} {P : α → Prop} {g : α → Option β}
    {as : List α} {bs : List β} (hf : ∀ a o, f a = .ok o ↔ P a ∧ g a = o) :
    as.filterMapM f = .ok bs ↔ (∀ a ∈ as, P a) ∧ as.filterMap g = bs := by
  simp only [filterMapM_eq_ok, hf, forall₂_and_eq]
  constructor
  · rintro ⟨_, ⟨hall, rfl⟩, rfl⟩
    exact ⟨hall, by rw [List.filterMap_map, Function.id_comp]⟩
  · rintro ⟨hall, rfl⟩
    exact ⟨_, ⟨hall, rfl⟩, by rw [List.filterMap_map, Function.id_comp]⟩

theorem filterMapM_of_forall {f : α → Except ε (Option β)} {g : α → Option β} {as : List α}
    (h : ∀ a ∈ as, f a = .ok (g a)) : as.filterMapM f = .ok (as.filterMap g) := by
  refine filterMapM_eq_ok.2 ⟨as.map g, ?_, ?_⟩
  · rw [List.forall₂_map_right_iff, List.forall₂_same]
    exact h
  · rw [List.filterMap_map, Function.id_comp]

theorem filterM_eq_ok {f : α → Except ε Bool} {as bs : List α} (h : as.filterM f = .ok bs) :
    ∃ keep : α → Bool, (∀ a ∈ as, f a = .ok (keep a)) ∧ bs = as.filter keep := by
  let keep (a : α) : Bool := (f a).toOption.getD false
  have run (as acc bs : List α) (h : as.filterAuxM f acc = .ok bs) :
      (∀ a ∈ as, f a = .ok (keep a)) ∧ bs = (as.filter keep).reverse ++ acc := by
    induction as generalizing acc with
    | nil => exact ⟨fun a ha => absurd ha List.not_mem_nil, (Except.ok.inj h).symm⟩
    | cons a as ih =>
      obtain ⟨b, hb, h⟩ := bind_eq_ok.1 h
      obtain ⟨hall, hbs⟩ := ih _ h
      have hkeep : keep a = b := by simp only [keep, hb]; rfl
      refine ⟨List.forall_mem_cons.2 ⟨hkeep ▸ hb, hall⟩, ?_⟩
      rw [hbs, List.filter_cons, hkeep]
      cases b with
      | true => simp
      | false => rfl
  obtain ⟨cs, hcs, h⟩ := bind_eq_ok.1 h
  obtain ⟨hall, rfl⟩ := run as [] cs hcs
  exact ⟨keep, hall, by rw [← Except.ok.inj h]; simp⟩

theorem forall₂_mem {R : α → β → Prop} {as : List α} {bs : List β}
    (h : List.Forall₂ R as bs) {b : β} (hb : b ∈ bs) : ∃ a ∈ as, R a b := by
  obtain ⟨i, hi⟩ := List.getElem?_of_mem hb
  obtain ⟨a, ha, hr⟩ := forall₂_getElem? h.flip hi
  exact ⟨a, List.mem_of_getElem? ha, hr⟩

theorem mem_of_lookup {as : List (String × α)} {n : String} {a : α} (h : as.lookup n = some a) :
    (n, a) ∈ as := by
  obtain ⟨before, behind, rfl, -⟩ := List.lookup_eq_some_iff.1 h
  exact List.mem_append_right before List.mem_cons_self

theorem find?_of_nodup {name : α → String} {as : List α} (h : (as.map name).Nodup) {a : α}
    (ha : a ∈ as) :
    as.find? (fun b => name b = name a) = some a := by
  induction as with
  | nil => cases ha
  | cons b as ih =>
    obtain ⟨hb, has⟩ := List.nodup_cons.1 h
    rw [List.find?_cons]
    rcases List.mem_cons.1 ha with rfl | ha
    · simp
    · have hne : name b ≠ name a := fun he => hb (List.mem_map.2 ⟨a, ha, he.symm⟩)
      simp only [hne, decide_false]
      exact ih has ha

theorem filterMap_of_nodup {name : α → String} {as : List α} (h : (as.map name).Nodup) {a : α}
    (ha : a ∈ as) (b : β) :
    (as.filterMap fun x => if name x = name a then some b else none) = [b] := by
  induction as with
  | nil => cases ha
  | cons x as ih =>
    obtain ⟨hx, has⟩ := List.nodup_cons.1 h
    rw [List.filterMap_cons]
    rcases List.mem_cons.1 ha with rfl | ha
    · have hrest : (as.filterMap fun x => if name x = name a then some b else none) = [] :=
        List.filterMap_eq_nil_iff.2 fun y hy => if_neg fun heq => hx (List.mem_map.2 ⟨y, hy, heq⟩)
      rw [if_pos rfl, hrest]
    · rw [if_neg fun heq => hx (List.mem_map.2 ⟨a, ha, heq.symm⟩)]
      exact ih has ha

theorem mapM_getElem? {f : α → Except ε β} {as : List α} {bs : List β} (h : as.mapM f = .ok bs)
    {i : Nat} {a : α} (ha : as[i]? = some a) : ∃ b, bs[i]? = some b ∧ f a = .ok b :=
  forall₂_getElem? (mapM_eq_ok.1 h) ha

theorem mapM_eq_error {f : α → Except ε β} {as : List α} {e : ε} (h : as.mapM f = .error e) :
    ∃ a ∈ as, f a = .error e := by
  induction as with
  | nil => cases h
  | cons a as ih =>
    rw [List.mapM_cons] at h
    rcases bind_eq_error.1 h with h | ⟨b, -, h⟩
    · exact ⟨a, List.mem_cons_self, h⟩
    rcases bind_eq_error.1 h with h | ⟨bs, -, h⟩
    · obtain ⟨a', ha', h⟩ := ih h
      exact ⟨a', List.mem_cons_of_mem a ha', h⟩
    · cases h

theorem filterMapM_eq_error {f : α → Except ε (Option β)} {as : List α} {e : ε}
    (h : as.filterMapM f = .error e) : ∃ a ∈ as, f a = .error e := by
  induction as with
  | nil => cases h
  | cons a as ih =>
    rw [List.filterMapM_cons] at h
    rcases bind_eq_error.1 h with h | ⟨o, -, h⟩
    · exact ⟨a, List.mem_cons_self, h⟩
    have hrest : as.filterMapM f = .error e := by
      cases o with
      | none => exact h
      | some b =>
        rcases bind_eq_error.1 h with h | ⟨bs, -, h⟩
        · exact h
        · cases h
    obtain ⟨a', ha', h⟩ := ih hrest
    exact ⟨a', List.mem_cons_of_mem a ha', h⟩

theorem exists_forall₂ {R : α → β → Prop} {as : List α} (h : ∀ a ∈ as, ∃ b, R a b) :
    ∃ bs, List.Forall₂ R as bs := by
  induction as with
  | nil => exact ⟨[], .nil⟩
  | cons a as ih =>
    rw [List.forall_mem_cons] at h
    obtain ⟨b, hb⟩ := h.1
    obtain ⟨bs, hbs⟩ := ih h.2
    exact ⟨b :: bs, .cons hb hbs⟩

theorem foldlM_preserves {f : β → α → Except ε β} {P : β → Prop} {as : List α} {b c : β}
    (hstep : ∀ a ∈ as, ∀ b c, P b → f b a = .ok c → P c) (hb : P b) (h : as.foldlM f b = .ok c) :
    P c := by
  induction as generalizing b with
  | nil =>
    cases h
    exact hb
  | cons a as ih =>
    rw [List.forall_mem_cons] at hstep
    obtain ⟨b', hb', h⟩ := bind_eq_ok.1 h
    exact ih hstep.2 (hstep.1 b b' hb hb') h

theorem foldlM_eq_error {f : β → α → Except ε β} {P : β → Prop} {as : List α} {b : β} {e : ε}
    (hstep : ∀ a ∈ as, ∀ b c, P b → f b a = .ok c → P c) (hb : P b) (h : as.foldlM f b = .error e) :
    ∃ a ∈ as, ∃ b, P b ∧ f b a = .error e := by
  induction as generalizing b with
  | nil => cases h
  | cons a as ih =>
    rw [List.forall_mem_cons] at hstep
    rcases bind_eq_error.1 h with h | ⟨b', hb', h⟩
    · exact ⟨a, List.mem_cons_self, b, hb, h⟩
    · obtain ⟨a', ha', hfail⟩ := ih hstep.2 (hstep.1 b b' hb hb') h
      exact ⟨a', List.mem_cons_of_mem _ ha', hfail⟩

theorem filterMapM_append {f : α → Except ε (Option β)} (as bs : List α) :
    (as ++ bs).filterMapM f = do return (← as.filterMapM f) ++ (← bs.filterMapM f) := by
  induction as with
  | nil => cases h : bs.filterMapM f <;> simp [h]
  | cons a as ih =>
    rw [List.cons_append, List.filterMapM_cons, List.filterMapM_cons, ih]
    cases f a with
    | error e => rfl
    | ok o => cases o <;> cases as.filterMapM f <;> cases bs.filterMapM f <;> rfl

theorem filterMapM_map {δ : Type} {f : α → Except ε (Option β)} {f' : γ → Except ε (Option δ)}
    {g : γ → α} {h : δ → β} (hf : ∀ c, f (g c) = (f' c).map (Option.map h)) (cs : List γ) :
    (cs.map g).filterMapM f = (cs.filterMapM f').map (List.map h) := by
  induction cs with
  | nil => rfl
  | cons c cs ih =>
    rw [List.map_cons, List.filterMapM_cons, List.filterMapM_cons, hf, ih]
    cases f' c with
    | error e => rfl
    | ok o => cases o <;> cases cs.filterMapM f' <;> rfl

theorem mapM_map {δ : Type} {f : α → Except ε β} {f' : γ → Except ε δ} {g : γ → α} {h : δ → β}
    (hf : ∀ c, f (g c) = (f' c).map h) (cs : List γ) :
    (cs.map g).mapM f = (cs.mapM f').map (List.map h) := by
  induction cs with
  | nil => rfl
  | cons c cs ih =>
    rw [List.map_cons, List.mapM_cons, List.mapM_cons, hf, ih]
    cases f' c with
    | error e => rfl
    | ok o => cases cs.mapM f' <;> rfl

theorem flatten_congr {R S : α → List β → Prop} {f : β → List γ} {as : List α}
    {bss css : List (List β)} (h : List.Forall₂ R as bss) (h' : List.Forall₂ S as css)
    (hf : ∀ a ∈ as, ∀ bs cs, R a bs → S a cs → bs.flatMap f = cs.flatMap f) :
    bss.flatten.flatMap f = css.flatten.flatMap f := by
  induction h generalizing css with
  | nil =>
    cases h'
    rfl
  | cons hr _ ih =>
    cases h' with
    | cons hs h' =>
      rw [List.flatten_cons, List.flatten_cons, List.flatMap_append, List.flatMap_append,
        hf _ List.mem_cons_self _ _ hr hs, ih h' fun a ha => hf a (List.mem_cons_of_mem _ ha)]

end TableScan
