/-!
# Journaled computations

A `Journal ε σ ω α` computes an `α` from a state `σ`, writes entries `ω` as it
goes and may stop with an `ε`. One that stops keeps the state it had reached and
the entries written so far: `Outcome` holds all three. The lemmas compute the
outcome of a composed computation from those of its parts.
-/

namespace Dynarec

structure Outcome (ε σ ω α : Type) where
  result : Except ε α
  state : σ
  journal : List ω

def Journal (ε σ ω α : Type) : Type := σ → Outcome ε σ ω α

variable {ε σ ω α β : Type}

namespace Outcome

/-- The same outcome with entries written before its own. -/
def after (o : Outcome ε σ ω α) (entries : List ω) : Outcome ε σ ω α :=
  { o with journal := entries ++ o.journal }

/-- Goes on with `f` if there is a result to go on with. -/
def andThen (o : Outcome ε σ ω α) (f : α → Journal ε σ ω β) : Outcome ε σ ω β :=
  match o.result with
  | .ok a => (f a o.state).after o.journal
  | .error e => ⟨.error e, o.state, o.journal⟩

@[simp] theorem after_nil (o : Outcome ε σ ω α) : o.after [] = o := rfl

@[simp] theorem after_mk (r : Except ε α) (s : σ) (j k : List ω) :
    (⟨r, s, j⟩ : Outcome ε σ ω α).after k = ⟨r, s, k ++ j⟩ := rfl

@[simp] theorem after_after (o : Outcome ε σ ω α) (j k : List ω) :
    (o.after j).after k = o.after (k ++ j) := by
  simp [after]

@[simp] theorem result_after (o : Outcome ε σ ω α) (k : List ω) : (o.after k).result = o.result :=
  rfl

@[simp] theorem state_after (o : Outcome ε σ ω α) (k : List ω) : (o.after k).state = o.state := rfl

@[simp] theorem journal_after (o : Outcome ε σ ω α) (k : List ω) :
    (o.after k).journal = k ++ o.journal := rfl

@[simp] theorem andThen_ok (a : α) (s : σ) (j : List ω) (f : α → Journal ε σ ω β) :
    andThen ⟨.ok a, s, j⟩ f = (f a s).after j := rfl

@[simp] theorem andThen_error (e : ε) (s : σ) (j : List ω) (f : α → Journal ε σ ω β) :
    andThen ⟨.error e, s, j⟩ f = ⟨.error e, s, j⟩ := rfl

theorem andThen_after (o : Outcome ε σ ω α) (k : List ω) (f : α → Journal ε σ ω β) :
    (o.after k).andThen f = (o.andThen f).after k := by
  cases o with
  | mk r s j => cases r <;> simp

end Outcome

namespace Journal

instance : Monad (Journal ε σ ω) where
  pure a := fun s => ⟨.ok a, s, []⟩
  bind m f := fun s => (m s).andThen f

def read : Journal ε σ ω σ := fun s => ⟨.ok s, s, []⟩

def modify (f : σ → σ) : Journal ε σ ω Unit := fun s => ⟨.ok (), f s, []⟩

def write (entries : List ω) : Journal ε σ ω Unit := fun s => ⟨.ok (), s, entries⟩

def stop (e : ε) : Journal ε σ ω α := fun s => ⟨.error e, s, []⟩

/-! ## Running -/

@[simp] theorem pure_run (a : α) (s : σ) : (pure a : Journal ε σ ω α) s = ⟨.ok a, s, []⟩ := rfl

@[simp] theorem bind_run (m : Journal ε σ ω α) (f : α → Journal ε σ ω β) (s : σ) :
    (m >>= f) s = (m s).andThen f := rfl

@[simp] theorem map_run (f : α → β) (m : Journal ε σ ω α) (s : σ) :
    (f <$> m) s = (m s).andThen fun a => pure (f a) := rfl

@[simp] theorem read_run (s : σ) : (read : Journal ε σ ω σ) s = ⟨.ok s, s, []⟩ := rfl

@[simp] theorem modify_run (f : σ → σ) (s : σ) :
    (modify f : Journal ε σ ω Unit) s = ⟨.ok (), f s, []⟩ := rfl

@[simp] theorem write_run (entries : List ω) (s : σ) :
    (write entries : Journal ε σ ω Unit) s = ⟨.ok (), s, entries⟩ := rfl

@[simp] theorem stop_run (e : ε) (s : σ) :
    (stop e : Journal ε σ ω α) s = ⟨.error e, s, []⟩ := rfl

instance : LawfulMonad (Journal ε σ ω) :=
  LawfulMonad.mk' (Journal ε σ ω)
    (fun m => by
      funext s
      cases h : m s with
      | mk r t j => cases r <;> simp [h])
    (fun a f => by funext s; simp)
    (fun m f g => by
      funext s
      cases h : m s with
      | mk r t j => cases r <;> simp [h, Outcome.andThen_after])

end Journal

end Dynarec
