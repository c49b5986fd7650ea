import ClientTable.Machine.Checked
import ClientTable.Proofs.Attempt

/-!
A machine beside the computation with unbounded numbers. `Mirrors` says that the machine does not
trap and does the same, as long as the two start in related states.
-/

namespace ClientTable

namespace Checked

variable {α β : Type}

theorem lift_bind {x : Except Error α} {f : α → Except Error β} :
    (liftM (x >>= f) : Checked β) = liftM x >>= fun a => liftM (f a) := by
  cases x <;> rfl

theorem ok_bind (a : α) (f : α → Checked β) : liftM (.ok a : Except Error α) >>= f = f a :=
  rfl

theorem bind_eq_lift {x : Checked α} {f : α → Checked β} {y : Except Error α}
    {g : α → Except Error β} (hx : x = liftM y) (hf : ∀ a, y = .ok a → f a = liftM (g a)) :
    x >>= f = liftM (y >>= g) := by
  rw [hx, lift_bind]
  cases y with
  | error e => rfl
  | ok a => exact hf a rfl

theorem mapM_eq_lift {f : α → Checked β} {g : α → Except Error β} {items : List α}
    (h : ∀ a ∈ items, f a = liftM (g a)) : items.mapM f = liftM (items.mapM g) := by
  induction items with
  | nil => rfl
  | cons a items ih =>
      rw [List.mapM_cons, List.mapM_cons]
      refine bind_eq_lift (h a (List.mem_cons_self ..)) fun b _ => ?_
      exact bind_eq_lift (ih fun a ha => h a (List.mem_cons_of_mem _ ha)) fun _ _ => rfl

end Checked

namespace Guarded

variable {σ τ ρ υ α β : Type} {R : σ → τ → Prop}

/-- From related states, the machine does not trap, has the same outcome as the other computation
and ends in a related state. -/
def Mirrors (R : σ → τ → Prop) (g : Guarded σ α) (m : Attempt τ α) : Prop :=
  ∀ s t, R s t → ∃ s', g.on s = .ok ((m.on t).1, s') ∧ R s' (m.on t).2

theorem mirrors_lift (x : Except Error α) : Mirrors R (liftM x) (liftM x) :=
  fun s _ h => ⟨s, rfl, h⟩

theorem mirrors_pure (a : α) : Mirrors R (pure a) (pure a) :=
  mirrors_lift (.ok a)

theorem mirrors_throw (e : Error) : Mirrors R (throw e : Guarded σ α) (throw e) :=
  mirrors_lift (.error e)

theorem mirrors_checked {x : Checked α} {y : Except Error α} (h : x = liftM y) :
    Mirrors R (liftM x) (liftM y) := by
  rw [h]
  exact mirrors_lift y

theorem Mirrors.bind_of_ensures {g : Guarded σ α} {f : α → Guarded σ β} {m : Attempt τ α}
    {n : α → Attempt τ β} {Q : α → Prop} (hm : Mirrors R g m) (hQ : Attempt.Ensures m Q)
    (hf : ∀ a, Q a → Mirrors R (f a) (n a)) : Mirrors R (g >>= f) (m >>= n) := by
  intro s t h
  obtain ⟨s', hrun, hafter⟩ := hm s t h
  have hQ := hQ t
  rw [on_bind, hrun, Attempt.on_bind]
  generalize m.on t = result at hafter hQ
  rcases result with ⟨_ | a, t'⟩
  · exact ⟨s', rfl, hafter⟩
  · exact hf a (hQ a rfl) s' t' hafter

theorem Mirrors.bind {g : Guarded σ α} {f : α → Guarded σ β} {m : Attempt τ α}
    {n : α → Attempt τ β} (hm : Mirrors R g m) (hf : ∀ a, Mirrors R (f a) (n a)) :
    Mirrors R (g >>= f) (m >>= n) :=
  hm.bind_of_ensures (Q := fun _ => True) (fun _ _ _ => trivial) fun a _ => hf a

theorem mirrors_lift_bind {x : Except Error α} {f : α → Guarded σ β} {n : α → Attempt τ β}
    (hf : ∀ a, x = .ok a → Mirrors R (f a) (n a)) :
    Mirrors R (liftM x >>= f) (liftM x >>= n) :=
  (mirrors_lift x).bind_of_ensures (Attempt.ensures_lift fun _ ha => ha) hf

theorem mirrors_throw_bind (e : Error) (f : α → Guarded σ β) (n : α → Attempt τ β) :
    Mirrors R ((throw e : Guarded σ α) >>= f) ((throw e : Attempt τ α) >>= n) :=
  fun s _ h => ⟨s, rfl, h⟩

theorem mirrors_get_bind {f : σ → Guarded σ α} {n : τ → Attempt τ α}
    (hf : ∀ s t, R s t → Mirrors R (f s) (n t)) : Mirrors R (get >>= f) (get >>= n) :=
  fun s t h => hf s t h s t h

theorem mirrors_modify {f : σ → σ} {n : τ → τ} (h : ∀ s t, R s t → R (f s) (n t)) :
    Mirrors R (modify f) (modify n) :=
  fun s t hst => ⟨f s, rfl, h s t hst⟩

theorem Mirrors.focus {S : ρ → υ → Prop} {part : σ → ρ} {put : ρ → σ → σ} {part' : τ → υ}
    {put' : υ → τ → τ} {g : Guarded ρ α} {m : Attempt υ α} (hm : Mirrors S g m)
    (hpart : ∀ s t, R s t → S (part s) (part' t))
    (hput : ∀ s t r u, R s t → S r u → R (put r s) (put' u t)) :
    Mirrors R (g.focus part put) (m.focus part' put') := by
  intro s t h
  obtain ⟨r, hrun, hafter⟩ := hm _ _ (hpart s t h)
  refine ⟨put r s, ?_, hput s t r _ h hafter⟩
  rw [on_focus, hrun]
  rfl

theorem mirrors_mapM {f : α → Guarded σ β} {n : α → Attempt τ β} {items : List α}
    (h : ∀ a ∈ items, Mirrors R (f a) (n a)) : Mirrors R (items.mapM f) (items.mapM n) := by
  induction items with
  | nil => exact mirrors_pure []
  | cons a items ih =>
      rw [List.mapM_cons, List.mapM_cons]
      refine (h a (List.mem_cons_self ..)).bind fun b => ?_
      exact (ih fun a ha => h a (List.mem_cons_of_mem _ ha)).bind fun _ => mirrors_pure _

/-- Two states are the same, and it is sound. -/
def Steady (I : σ → Prop) (s t : σ) : Prop :=
  s = t ∧ I s

theorem mirrors_ofAttempt {I : σ → Prop} {m : Attempt σ α} (h : ∀ s, I s → I (m.on s).2) :
    Mirrors (Steady I) (liftM m) m := by
  rintro s t ⟨rfl, hs⟩
  exact ⟨_, rfl, rfl, h s hs⟩

end Guarded

namespace Stepwise

variable {σ τ α β α' β' : Type} {R : σ → τ → Prop} {S : α → β → Prop} {S' : α' → β' → Prop}

/-- From related states, the machine does not trap, gives something related to what the other
computation gives and ends in a related state. -/
def Mirrors (R : σ → τ → Prop) (S : α → β → Prop) (g : Stepwise σ α) (m : StateM τ β) : Prop :=
  ∀ s t, R s t → ∃ a s', g.run s = .ok (a, s') ∧ S a (m.run t).1 ∧ R s' (m.run t).2

theorem mirrors_pure {a : α} {b : β} (h : S a b) : Mirrors R S (pure a) (pure b) :=
  fun s _ hst => ⟨a, s, rfl, h, hst⟩

theorem trap_bind {x : Except Trap α} {a : α} (hx : x = pure a) (f : α → Stepwise σ α') :
    liftM x >>= f = f a := by
  rw [hx]
  rfl

theorem Mirrors.bind {g : Stepwise σ α} {f : α → Stepwise σ α'} {m : StateM τ β}
    {n : β → StateM τ β'} (hm : Mirrors R S g m)
    (hf : ∀ a b, S a b → Mirrors R S' (f a) (n b)) : Mirrors R S' (g >>= f) (m >>= n) := by
  intro s t h
  obtain ⟨a, s', hrun, hgiven, hafter⟩ := hm s t h
  rw [StateT.run_bind, hrun]
  exact hf a _ hgiven s' _ hafter

theorem mirrors_of_guarded {g : Guarded σ α} {m : Attempt τ α} {Q : α → Prop}
    (h : Guarded.Mirrors R g m) (hQ : Attempt.Ensures m Q) :
    Mirrors R (fun x y => x = y ∧ ∀ a, y = .ok a → Q a) g.run m.run := by
  intro s t hst
  obtain ⟨s', hrun, hafter⟩ := h s t hst
  exact ⟨_, s', hrun, ⟨rfl, hQ t⟩, hafter⟩

end Stepwise

end ClientTable
