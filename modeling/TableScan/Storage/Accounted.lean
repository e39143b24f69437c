import TableScan.Storage

namespace TableScan

structure Accounted (α : Type) : Type where
  traffic : Traffic
  result : Except Failure α

namespace Accounted

variable {α β : Type}

def ofResult (r : Except Failure α) : Accounted α := ⟨.none_, r⟩

def bind (a : Accounted α) (f : α → Accounted β) : Accounted β :=
  match a.result with
  | .error e => ⟨a.traffic, .error e⟩
  | .ok x => ⟨a.traffic + (f x).traffic, (f x).result⟩

instance : Monad Accounted where
  pure a := ofResult (.ok a)
  bind := bind

instance : MonadLift (Except Failure) Accounted := ⟨ofResult⟩

@[simp] theorem result_ofResult (r : Except Failure α) : (ofResult r).result = r := rfl

@[simp] theorem result_pure (a : α) : (pure a : Accounted α).result = .ok a := rfl

@[simp] theorem result_bind (a : Accounted α) (f : α → Accounted β) :
    (a >>= f).result = a.result >>= fun x => (f x).result := by
  change (bind a f).result = _
  unfold bind
  cases h : a.result <;> rfl

@[simp] theorem result_map (f : α → β) (a : Accounted α) : (f <$> a).result = a.result.map f := by
  change (bind a fun x => pure (f x)).result = _
  unfold bind
  cases a.result <;> rfl

@[simp] theorem traffic_pure (a : α) : (pure a : Accounted α).traffic = .none_ := rfl

end Accounted

end TableScan
