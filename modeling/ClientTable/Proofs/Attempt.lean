import Mathlib.Data.List.Forall2
import ClientTable.Attempt

/-!
Reasoning about computations that may fail, without running them. `Ensures` is about what they
give out, `Respects` about what they make of states that differ only in what does not matter,
`Follows` about one that succeeds wherever another does, and `Gives` about the one thing that they
give out as long as the state is sound.
-/

namespace ClientTable.Attempt

variable {σ τ α β : Type} {R : σ → σ → Prop} {P : β → Prop} {Q : α → Prop}

theorem bind_eq_ok {x : Except Error α} {f : α → Except Error β} {b : β} :
    x >>= f = .ok b ↔ ∃ a, x = .ok a ∧ f a = .ok b := by
  cases x with
  | error e =>
      constructor
      · intro h
        cases h
      · rintro ⟨a, ha, _⟩
        cases ha
  | ok a =>
      constructor
      · intro h
        exact ⟨a, rfl, h⟩
      · rintro ⟨_, ha, h⟩
        cases ha
        exact h

theorem bind_eq_error {x : Except Error α} {f : α → Except Error β} {e : Error} :
    x >>= f = .error e ↔ x = .error e ∨ ∃ a, x = .ok a ∧ f a = .error e := by
  cases x with
  | error e' =>
      constructor
      · intro h
        cases h
        exact Or.inl rfl
      · rintro (h | ⟨_, ha, _⟩)
        · cases h
          rfl
        · cases ha
  | ok a =>
      constructor
      · intro h
        exact Or.inr ⟨a, rfl, h⟩
      · rintro (h | ⟨_, ha, h⟩)
        · cases h
        · cases ha
          exact h

theorem ok_of_toOption {ε : Type} {x : Except ε α} {a : α} (h : x.toOption = some a) :
    x = .ok a := by
  cases x with
  | error e => cases h
  | ok b =>
      cases h
      rfl

theorem exists_of_mapM {f : α → Except Error β} {items : List α} {results : List β}
    (h : items.mapM f = .ok results) {i : Nat} {a : α} (ha : items[i]? = some a) :
    ∃ b, results[i]? = some b ∧ f a = .ok b := by
  induction items generalizing results i with
  | nil => cases ha
  | cons first items ih =>
      rw [List.mapM_cons] at h
      obtain ⟨b, hfirst, h⟩ := bind_eq_ok.mp h
      obtain ⟨others, hothers, h⟩ := bind_eq_ok.mp h
      cases h
      cases i with
      | zero =>
          cases ha
          exact ⟨b, rfl, hfirst⟩
      | succ i => exact ih hothers ha

theorem exists_of_mapM_error {f : α → Except Error β} {items : List α} {e : Error}
    (h : items.mapM f = .error e) : ∃ a ∈ items, f a = .error e := by
  induction items with
  | nil => cases h
  | cons first items ih =>
      rw [List.mapM_cons] at h
      rcases bind_eq_error.mp h with hfirst | ⟨_, _, h⟩
      · exact ⟨first, List.mem_cons_self .., hfirst⟩
      · rcases bind_eq_error.mp h with hothers | ⟨_, _, h⟩
        · obtain ⟨a, ha, hfail⟩ := ih hothers
          exact ⟨a, List.mem_cons_of_mem _ ha, hfail⟩
        · cases h

/-- Whatever a computation gives out satisfies the predicate. -/
def Ensures (m : Attempt σ α) (Q : α → Prop) : Prop :=
  ∀ s a, (m.on s).1 = .ok a → Q a

theorem ensures_lift {x : Except Error α} (h : ∀ a, x = .ok a → Q a) :
    Ensures (liftM x : Attempt σ α) Q :=
  fun _ a ha => h a ha

theorem ensures_pure {a : α} (h : Q a) : Ensures (pure a : Attempt σ α) Q := by
  intro s b hb
  cases hb
  exact h

theorem ensures_throw (e : Error) : Ensures (throw e : Attempt σ α) Q := by
  intro s b hb
  cases hb

theorem ensures_throw_bind (e : Error) (f : α → Attempt σ β) :
    Ensures ((throw e : Attempt σ α) >>= f) P := by
  intro s b hb
  cases hb

theorem Ensures.bind {m : Attempt σ α} {f : α → Attempt σ β} (hm : Ensures m Q)
    (hf : ∀ a, Q a → Ensures (f a) P) : Ensures (m >>= f) P := by
  intro s b hb
  rw [on_bind] at hb
  rcases hs : m.on s with ⟨_ | a, t⟩
  · rw [hs] at hb
    cases hb
  · rw [hs] at hb
    exact hf a (hm s a (by rw [hs])) t b hb

theorem ensures_bind {m : Attempt σ α} {f : α → Attempt σ β} (hf : ∀ a, Ensures (f a) P) :
    Ensures (m >>= f) P :=
  Ensures.bind (Q := fun _ => True) (fun _ _ _ => trivial) fun a _ => hf a

theorem Ensures.mono {P : α → Prop} {m : Attempt σ α} (hm : Ensures m Q) (h : ∀ a, Q a → P a) :
    Ensures m P :=
  fun s a ha => h a (hm s a ha)

/-- There is a state in which the computation gives out the value. -/
def Yields (m : Attempt σ α) (a : α) : Prop :=
  ∃ s, (m.on s).1 = .ok a

theorem ensures_yields (m : Attempt σ α) : Ensures m m.Yields :=
  fun s _ ha => ⟨s, ha⟩

theorem Yields.of_ensures {m : Attempt σ α} {a : α} (h : m.Yields a) (hm : Ensures m Q) : Q a :=
  let ⟨s, ha⟩ := h
  hm s a ha

/-- From related states a computation has one outcome, and it ends in related states. -/
def Respects (R : σ → σ → Prop) (m : Attempt σ α) : Prop :=
  ∀ s t, R s t → (m.on s).1 = (m.on t).1 ∧ R (m.on s).2 (m.on t).2

theorem Respects.on_eq_ok {m : Attempt σ α} (hm : Respects R m) {s t s' : σ} (hst : R s t) {a : α}
    (h : m.on s = (.ok a, s')) : ∃ t', m.on t = (.ok a, t') ∧ R s' t' := by
  obtain ⟨hsame, hafter⟩ := hm s t hst
  rw [h] at hsame hafter
  exact ⟨(m.on t).2, Prod.ext hsame.symm rfl, hafter⟩

theorem respects_lift (x : Except Error α) : Respects R (liftM x) :=
  fun _ _ h => ⟨rfl, h⟩

theorem respects_pure (a : α) : Respects R (pure a) :=
  respects_lift (.ok a)

theorem respects_throw (e : Error) : Respects R (throw e : Attempt σ α) :=
  respects_lift (.error e)

theorem respects_throw_bind (e : Error) (f : α → Attempt σ β) :
    Respects R ((throw e : Attempt σ α) >>= f) :=
  fun _ _ h => ⟨rfl, h⟩

theorem Respects.bind {m : Attempt σ α} {f : α → Attempt σ β} (hm : Respects R m)
    (hf : ∀ a, Respects R (f a)) : Respects R (m >>= f) := by
  intro s t h
  obtain ⟨hsame, hafter⟩ := hm s t h
  rw [on_bind, on_bind]
  rcases hs : m.on s with ⟨x, s'⟩
  rcases ht : m.on t with ⟨y, t'⟩
  rw [hs, ht] at hsame hafter
  obtain rfl : x = y := hsame
  cases x with
  | error e => exact ⟨rfl, hafter⟩
  | ok a => exact hf a s' t' hafter

theorem respects_get_bind {f : σ → Attempt σ α} (hshared : ∀ s t, R s t → f s = f t)
    (hf : ∀ s, Respects R (f s)) : Respects R (get >>= f) := by
  intro s t h
  rw [on_bind, on_bind, on_get, on_get]
  dsimp only
  rw [hshared s t h]
  exact hf t s t h

theorem respects_modify {f : σ → σ} (h : ∀ s t, R s t → R (f s) (f t)) :
    Respects R (modify f) :=
  fun s t hst => ⟨rfl, h s t hst⟩

theorem Respects.focus {Q : τ → τ → Prop} {part : σ → τ} {put : τ → σ → σ} {m : Attempt τ α}
    (hm : Respects Q m) (hpart : ∀ s t, R s t → Q (part s) (part t))
    (hput : ∀ s t p q, R s t → Q p q → R (put p s) (put q t)) :
    Respects R (m.focus part put) := by
  intro s t h
  rw [on_focus, on_focus]
  obtain ⟨hsame, hafter⟩ := hm _ _ (hpart s t h)
  exact ⟨hsame, hput s t _ _ h hafter⟩

theorem respects_mapM {f : α → Attempt σ β} (h : ∀ a, Respects R (f a)) (items : List α) :
    Respects R (items.mapM f) := by
  induction items with
  | nil =>
      rw [List.mapM_nil]
      exact respects_pure []
  | cons a items ih =>
      rw [List.mapM_cons]
      exact (h a).bind fun b => ih.bind fun bs => respects_pure (b :: bs)

theorem mapM_congr {f g : α → Attempt σ β} {items : List α} (h : ∀ a ∈ items, f a = g a) :
    items.mapM f = items.mapM g := by
  induction items with
  | nil => rw [List.mapM_nil, List.mapM_nil]
  | cons a items ih =>
      rw [List.mapM_cons, List.mapM_cons, h a (List.mem_cons_self ..),
        ih fun b hb => h b (List.mem_cons_of_mem _ hb)]

/-- Wherever the first computation succeeds, the second does from a related state. The results are
related, and so are the states afterwards. -/
def Follows (R : σ → σ → Prop) (S : α → β → Prop) (m : Attempt σ α) (n : Attempt σ β) : Prop :=
  ∀ s s' a t, R s s' → m.on s = (.ok a, t) → ∃ b t', n.on s' = (.ok b, t') ∧ S a b ∧ R t t'

variable {S : α → β → Prop}

theorem Respects.follows {m : Attempt σ α} (hm : Respects R m) : Follows R Eq m m := by
  intro s s' a t hs h
  obtain ⟨t', h', ht⟩ := hm.on_eq_ok hs h
  exact ⟨a, t', h', rfl, ht⟩

theorem follows_pure {a : α} {b : β} (h : S a b) : Follows R S (pure a) (pure b) := by
  intro s s' a t hs ha
  cases ha
  exact ⟨b, s', rfl, h, hs⟩

theorem follows_throw (e : Error) (n : Attempt σ β) : Follows R S (throw e : Attempt σ α) n := by
  intro s s' a t hs ha
  cases ha

theorem Follows.bind {α' β' : Type} {T : α' → β' → Prop} {m : Attempt σ α} {n : Attempt σ β}
    {f : α → Attempt σ α'} {g : β → Attempt σ β'} (hm : Follows R S m n)
    (hf : ∀ a b, S a b → Follows R T (f a) (g b)) : Follows R T (m >>= f) (n >>= g) := by
  intro s s' c u hs h
  rw [on_bind] at h
  rcases hrun : m.on s with ⟨_ | a, t⟩
  · rw [hrun] at h
    cases h
  · rw [hrun] at h
    obtain ⟨b, t', hn, hab, ht⟩ := hm s s' a t hs hrun
    rw [on_bind_of_ok hn]
    exact hf a b hab t t' c u ht h

theorem Follows.bind_eq {α' β' : Type} {T : α' → β' → Prop} {m n : Attempt σ α}
    {f : α → Attempt σ α'} {g : α → Attempt σ β'} (hm : Follows R Eq m n)
    (hf : ∀ a, Follows R T (f a) (g a)) : Follows R T (m >>= f) (n >>= g) := by
  refine hm.bind fun a b hab => ?_
  subst hab
  exact hf a

theorem follows_mapM {f g : α → Attempt σ β} (h : ∀ a, Follows R Eq (f a) (g a))
    (items : List α) : Follows R Eq (items.mapM f) (items.mapM g) := by
  induction items with
  | nil =>
      rw [List.mapM_nil, List.mapM_nil]
      exact follows_pure rfl
  | cons a items ih =>
      rw [List.mapM_cons, List.mapM_cons]
      exact (h a).bind_eq fun b => ih.bind_eq fun others => follows_pure rfl

/-- A part of the state is afterwards what it was before. -/
def Leaves (part : σ → τ) (m : Attempt σ α) : Prop :=
  ∀ s, part (m.on s).2 = part s

variable {part : σ → τ}

theorem leaves_lift (x : Except Error α) : Leaves part (liftM x : Attempt σ α) :=
  fun _ => rfl

theorem leaves_pure (a : α) : Leaves part (pure a : Attempt σ α) :=
  leaves_lift (.ok a)

theorem leaves_throw (e : Error) : Leaves part (throw e : Attempt σ α) :=
  leaves_lift (.error e)

theorem leaves_throw_bind (e : Error) (f : α → Attempt σ β) :
    Leaves part ((throw e : Attempt σ α) >>= f) :=
  fun _ => rfl

theorem leaves_get : Leaves part (get : Attempt σ σ) :=
  fun _ => rfl

theorem Leaves.bind {m : Attempt σ α} {f : α → Attempt σ β} (hm : Leaves part m)
    (hf : ∀ a, Leaves part (f a)) : Leaves part (m >>= f) := by
  intro s
  have hfirst := hm s
  rw [on_bind]
  rcases hrun : m.on s with ⟨_ | a, t⟩
  · rw [hrun] at hfirst
    exact hfirst
  · rw [hrun] at hfirst
    exact (hf a t).trans hfirst

theorem leaves_mapM {f : α → Attempt σ β} (h : ∀ a, Leaves part (f a)) (items : List α) :
    Leaves part (items.mapM f) := by
  induction items with
  | nil =>
      rw [List.mapM_nil]
      exact leaves_pure []
  | cons a items ih =>
      rw [List.mapM_cons]
      exact (h a).bind fun b => ih.bind fun bs => leaves_pure (b :: bs)

theorem leaves_of_respects {m : Attempt σ α}
    (hm : ∀ x, Respects (fun s t => s = t ∧ part s = x) m) : Leaves part m :=
  fun s => (hm (part s) s s ⟨rfl, rfl⟩).2.2

/-- From a sound state a computation gives out `a`, and it ends in a sound state. -/
def Gives (I : σ → Prop) (m : Attempt σ α) (a : α) : Prop :=
  ∀ s, I s → (m.on s).1 = .ok a ∧ I (m.on s).2

variable {I : σ → Prop}

theorem gives_lift {x : Except Error α} {a : α} (h : x = .ok a) :
    Gives I (liftM x : Attempt σ α) a :=
  fun _ hs => ⟨h, hs⟩

theorem gives_pure (a : α) : Gives I (pure a : Attempt σ α) a :=
  gives_lift rfl

theorem Gives.bind {m : Attempt σ α} {f : α → Attempt σ β} {a : α} {b : β} (hm : Gives I m a)
    (hf : Gives I (f a) b) : Gives I (m >>= f) b := by
  intro s hs
  obtain ⟨hok, hafter⟩ := hm s hs
  rw [on_bind]
  rcases hrun : m.on s with ⟨x, t⟩
  rw [hrun] at hok hafter
  obtain rfl : x = .ok a := hok
  exact hf t hafter

theorem Gives.ensures {m : Attempt σ α} {a : α} (h : Gives (fun _ => True) m a) :
    Ensures m fun b => b = a := by
  intro s b hb
  rw [(h s trivial).1] at hb
  cases hb
  rfl

theorem gives_get_bind {f : σ → Attempt σ α} {a : α}
    (h : ∀ s, I s → ((f s).on s).1 = .ok a ∧ I ((f s).on s).2) : Gives I (get >>= f) a := by
  intro s hs
  rw [on_bind, on_get]
  exact h s hs

theorem Gives.focus {J : τ → Prop} {part : σ → τ} {put : τ → σ → σ} {m : Attempt τ α} {a : α}
    (hm : Gives J m a) (hpart : ∀ s, I s → J (part s))
    (hput : ∀ s p, I s → J p → I (put p s)) : Gives I (m.focus part put) a := by
  intro s hs
  obtain ⟨hok, hafter⟩ := hm (part s) (hpart s hs)
  rw [on_focus]
  exact ⟨hok, hput s _ hs hafter⟩

theorem gives_mapM {f : α → Attempt σ β} {items : List α} {results : List β}
    (h : List.Forall₂ (fun a b => Gives I (f a) b) items results) :
    Gives I (items.mapM f) results := by
  induction h with
  | nil =>
      rw [List.mapM_nil]
      exact gives_pure []
  | cons hfirst _ ih =>
      rw [List.mapM_cons]
      exact hfirst.bind (ih.bind (gives_pure _))

/-- A computation that succeeds does so step by step. -/
theorem on_bind_eq_ok {m : Attempt σ α} {f : α → Attempt σ β} {s t : σ} {b : β} :
    (m >>= f).on s = (.ok b, t) ↔ ∃ a u, m.on s = (.ok a, u) ∧ (f a).on u = (.ok b, t) := by
  rw [on_bind]
  rcases m.on s with ⟨_ | a, u⟩
  · constructor
    · intro h
      cases h
    · rintro ⟨_, _, h, _⟩
      cases h
  · constructor
    · intro h
      exact ⟨a, u, rfl, h⟩
    · rintro ⟨_, _, hm, h⟩
      cases hm
      exact h

theorem on_lift_eq_ok {x : Except Error α} {b : α} {s t : σ}
    (h : (liftM x : Attempt σ α).on s = (.ok b, t)) : x = .ok b ∧ s = t := by
  cases h
  exact ⟨rfl, rfl⟩

theorem forall₂_of_on_mapM {f : α → Attempt σ β} {S : α → β → Prop}
    (hf : ∀ a b s t, (f a).on s = (.ok b, t) → S a b) {items : List α} {results : List β} {s t : σ}
    (h : (items.mapM f).on s = (.ok results, t)) : List.Forall₂ S items results := by
  induction items generalizing results s with
  | nil =>
      rw [List.mapM_nil] at h
      cases h
      exact List.Forall₂.nil
  | cons a items ih =>
      rw [List.mapM_cons] at h
      obtain ⟨b, u, hfirst, h⟩ := on_bind_eq_ok.mp h
      obtain ⟨others, v, hothers, h⟩ := on_bind_eq_ok.mp h
      cases h
      exact List.Forall₂.cons (hf a b s u hfirst) (ih hothers)

/-- Each item has its turn after those before it. -/
theorem exists_of_on_mapM {f : α → Attempt σ β} {items : List α} {results : List β} {s t : σ}
    (h : (items.mapM f).on s = (.ok results, t)) {i : Nat} {a : α} (ha : items[i]? = some a) :
    ∃ before u b v, ((items.take i).mapM f).on s = (.ok before, u) ∧ (f a).on u = (.ok b, v) ∧
      results[i]? = some b := by
  induction items generalizing results s i with
  | nil => cases ha
  | cons first items ih =>
      rw [List.mapM_cons] at h
      obtain ⟨b, u, hfirst, h⟩ := on_bind_eq_ok.mp h
      obtain ⟨others, v, hothers, h⟩ := on_bind_eq_ok.mp h
      cases h
      cases i with
      | zero =>
          cases ha
          exact ⟨[], s, b, u, rfl, hfirst, rfl⟩
      | succ i =>
          obtain ⟨before, w, b', v', hbefore, hitem, hresult⟩ := ih hothers ha
          refine ⟨b :: before, w, b', v', ?_, hitem, hresult⟩
          rw [List.take_succ_cons, List.mapM_cons]
          exact on_bind_eq_ok.mpr ⟨b, u, hfirst, on_bind_eq_ok.mpr ⟨before, w, hbefore, rfl⟩⟩

end ClientTable.Attempt
