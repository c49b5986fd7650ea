import ClientTable.Error

/-!
Computations that change a state and may fail. The state that a computation leaves behind is known
in any case. `Attempt.on` runs one; the lemmas say what it does to each way of building one.
-/

namespace ClientTable

/-- A computation on a state that may fail. -/
abbrev Attempt (σ : Type) := ExceptT Error (StateM σ)

namespace Attempt

variable {σ τ α β : Type}

/-- The outcome of a computation on a state, and the state afterwards. -/
def on (m : Attempt σ α) (s : σ) : Except Error α × σ :=
  m.run.run s

def focus (get : σ → τ) (put : τ → σ → σ) (m : Attempt τ α) : Attempt σ α := do
  let s ← MonadState.get
  let (outcome, part) := m.on (get s)
  set (put part s)
  outcome

@[simp]
theorem on_pure (a : α) (s : σ) : (pure a : Attempt σ α).on s = (.ok a, s) :=
  rfl

@[simp]
theorem on_throw (e : Error) (s : σ) : (throw e : Attempt σ α).on s = (.error e, s) :=
  rfl

@[simp]
theorem on_lift (x : Except Error α) (s : σ) : (liftM x : Attempt σ α).on s = (x, s) :=
  rfl

@[simp]
theorem on_get (s : σ) : (get : Attempt σ σ).on s = (.ok s, s) :=
  rfl

@[simp]
theorem on_set (t s : σ) : (set t : Attempt σ PUnit).on s = (.ok ⟨⟩, t) :=
  rfl

@[simp]
theorem on_modify (f : σ → σ) (s : σ) : (modify f : Attempt σ PUnit).on s = (.ok ⟨⟩, f s) :=
  rfl

theorem on_bind (m : Attempt σ α) (f : α → Attempt σ β) (s : σ) :
    (m >>= f).on s =
      match m.on s with
      | (.ok a, t) => (f a).on t
      | (.error e, t) => (.error e, t) := by
  change (match m s with | (r, t) => ExceptT.bindCont f r t) = _
  change _ = match m s with
    | (.ok a, t) => (f a).on t
    | (.error e, t) => (.error e, t)
  rcases m s with ⟨_ | _, _⟩ <;> rfl

theorem on_bind_of_ok {m : Attempt σ α} {f : α → Attempt σ β} {s t : σ} {a : α}
    (h : m.on s = (.ok a, t)) : (m >>= f).on s = (f a).on t := by
  rw [on_bind, h]

theorem on_bind_of_error {m : Attempt σ α} {f : α → Attempt σ β} {s t : σ} {e : Error}
    (h : m.on s = (.error e, t)) : (m >>= f).on s = (.error e, t) := by
  rw [on_bind, h]

@[simp]
theorem on_focus (get : σ → τ) (put : τ → σ → σ) (m : Attempt τ α) (s : σ) :
    (focus get put m).on s = ((m.on (get s)).1, put (m.on (get s)).2 s) :=
  rfl

end Attempt

end ClientTable
