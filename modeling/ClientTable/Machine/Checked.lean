import ClientTable.Attempt
import ClientTable.Quantity

/-!
Computations of a machine that stops dead where a number does not fit in its word, a difference
falls below zero, something is divided by zero, or an index or a range is not there. Such a trap is
no error that a caller gets to see: nothing goes on after it.
-/

namespace ClientTable

/-- Why a machine stops dead. -/
inductive Trap where
  | overflow
  | underflow
  | zeroDivisor
  | outOfRange
  deriving DecidableEq, Repr

/-- A computation that may fail, or trap. -/
abbrev Checked := ExceptT Error (Except Trap)

/-- A computation on a state that may trap. -/
abbrev Stepwise (σ : Type) := StateT σ (Except Trap)

/-- A computation on a state that may fail, or trap. -/
abbrev Guarded (σ : Type) := ExceptT Error (Stepwise σ)

namespace Checked

variable {α : Type}

def fit (limit n : Nat) : Except Trap Nat :=
  if n < limit then return n else throw .overflow

def add (limit a b : Nat) : Except Trap Nat :=
  fit limit (a + b)

def mul (limit a b : Nat) : Except Trap Nat :=
  fit limit (a * b)

def sub (a b : Nat) : Except Trap Nat :=
  if b ≤ a then return a - b else throw .underflow

def div (a b : Nat) : Except Trap Nat :=
  if b = 0 then throw .zeroDivisor else return a / b

def rem (a b : Nat) : Except Trap Nat :=
  if b = 0 then throw .zeroDivisor else return a % b

def sum (limit : Nat) (numbers : List Nat) : Except Trap Nat :=
  numbers.foldlM (add limit) 0

def item (items : List α) (index : Nat) : Except Trap α :=
  match items[index]? with
  | some a => return a
  | none => throw .outOfRange

def slice (items : List α) (start stop : Nat) : Except Trap (List α) :=
  if start ≤ stop ∧ stop ≤ items.length then return (items.take stop).drop start
  else throw .outOfRange

/-- A step that does not trap can be left out. -/
theorem trap_bind {β : Type} {x : Except Trap α} {a : α} (hx : x = pure a) (f : α → Checked β) :
    liftM x >>= f = f a := by
  rw [hx]
  rfl

theorem bind_of_trap {β : Type} {x : Checked α} {trap : Trap} (hx : x.run = .error trap)
    (f : α → Checked β) : (x >>= f).run = .error trap := by
  rw [ExceptT.run_bind, hx]
  rfl

theorem fit_of_lt {limit n : Nat} (h : n < limit) : fit limit n = pure n :=
  if_pos h

theorem fit_of_le {limit n : Nat} (h : limit ≤ n) : fit limit n = .error .overflow :=
  if_neg (Nat.not_lt.mpr h)

theorem add_of_lt {limit a b : Nat} (h : a + b < limit) : add limit a b = pure (a + b) :=
  fit_of_lt h

theorem mul_of_lt {limit a b : Nat} (h : a * b < limit) : mul limit a b = pure (a * b) :=
  fit_of_lt h

theorem sub_of_le {a b : Nat} (h : b ≤ a) : sub a b = pure (a - b) :=
  if_pos h

theorem div_of_ne {a b : Nat} (h : b ≠ 0) : div a b = pure (a / b) :=
  if_neg h

theorem rem_of_ne {a b : Nat} (h : b ≠ 0) : rem a b = pure (a % b) :=
  if_neg h

theorem foldlM_add_of_lt {limit : Nat} {numbers : List Nat} {start : Nat}
    (h : start + total numbers < limit) :
    numbers.foldlM (add limit) start = pure (start + total numbers) := by
  induction numbers generalizing start with
  | nil => rfl
  | cons n numbers ih =>
      rw [total_cons, ← Nat.add_assoc] at h ⊢
      rw [List.foldlM_cons, add_of_lt (by omega), pure_bind, ih h]

theorem sum_of_lt {limit : Nat} {numbers : List Nat} (h : total numbers < limit) :
    sum limit numbers = pure (total numbers) := by
  rw [sum, foldlM_add_of_lt (by omega), Nat.zero_add]

theorem item_of_getElem? {items : List α} {index : Nat} {a : α} (h : items[index]? = some a) :
    item items index = pure a := by
  rw [item, h]

theorem slice_of_le {items : List α} {start stop : Nat} (hstart : start ≤ stop)
    (hstop : stop ≤ items.length) :
    slice items start stop = pure ((items.take stop).drop start) :=
  if_pos ⟨hstart, hstop⟩

end Checked

namespace Guarded

variable {σ τ α β : Type}

def on (g : Guarded σ α) (s : σ) : Except Trap (Except Error α × σ) :=
  g.run.run s

/-- A computation that leaves the state alone. -/
def ofChecked (x : Checked α) : Guarded σ α :=
  ExceptT.mk fun s => x.run.map fun outcome => (outcome, s)

instance : MonadLift Checked (Guarded σ) :=
  ⟨ofChecked⟩

/-- A computation that never traps. -/
def ofAttempt (m : Attempt σ α) : Guarded σ α :=
  ExceptT.mk fun s => .ok (m.on s)

instance : MonadLift (Attempt σ) (Guarded σ) :=
  ⟨ofAttempt⟩

def focus (get : σ → τ) (put : τ → σ → σ) (g : Guarded τ α) : Guarded σ α :=
  ExceptT.mk fun s => do
    let (outcome, part) ← g.on (get s)
    return (outcome, put part s)

@[simp]
theorem on_pure (a : α) (s : σ) : (pure a : Guarded σ α).on s = .ok (.ok a, s) :=
  rfl

@[simp]
theorem on_throw (e : Error) (s : σ) : (throw e : Guarded σ α).on s = .ok (.error e, s) :=
  rfl

@[simp]
theorem on_get (s : σ) : (get : Guarded σ σ).on s = .ok (.ok s, s) :=
  rfl

@[simp]
theorem on_set (t s : σ) : (set t : Guarded σ PUnit).on s = .ok (.ok ⟨⟩, t) :=
  rfl

@[simp]
theorem on_modify (f : σ → σ) (s : σ) :
    (modify f : Guarded σ PUnit).on s = .ok (.ok ⟨⟩, f s) :=
  rfl

@[simp]
theorem on_lift (x : Except Error α) (s : σ) : (liftM x : Guarded σ α).on s = .ok (x, s) :=
  rfl

theorem trap_bind {x : Except Trap α} {a : α} (hx : x = pure a) (f : α → Guarded σ β) :
    liftM x >>= f = f a := by
  rw [hx]
  rfl

theorem checked_bind {x : Checked α} {a : α} (hx : x = pure a) (f : α → Guarded σ β) :
    liftM x >>= f = f a := by
  rw [hx]
  rfl

@[simp]
theorem on_focus (get : σ → τ) (put : τ → σ → σ) (g : Guarded τ α) (s : σ) :
    (focus get put g).on s =
      (g.on (get s)).map fun (outcome, part) => (outcome, put part s) := by
  change (g.on (get s) >>= fun (outcome, part) => pure (outcome, put part s)) = _
  cases g.on (get s) <;> rfl

theorem on_bind (g : Guarded σ α) (f : α → Guarded σ β) (s : σ) :
    (g >>= f).on s =
      match g.on s with
      | .ok (.ok a, t) => (f a).on t
      | .ok (.error e, t) => .ok (.error e, t)
      | .error t => .error t := by
  unfold on
  rw [ExceptT.run_bind, StateT.run_bind]
  rcases g.run.run s with t | ⟨_ | _, _⟩ <;> rfl

theorem on_checked (x : Checked α) (s : σ) :
    (liftM x : Guarded σ α).on s = x.run.map fun outcome => (outcome, s) :=
  rfl

theorem on_bind_of_trap {g : Guarded σ α} {s : σ} {trap : Trap} (h : g.on s = .error trap)
    (f : α → Guarded σ β) : (g >>= f).on s = .error trap := by
  rw [on_bind, h]

theorem on_bind_of_ok {g : Guarded σ α} {f : α → Guarded σ β} {s t : σ} {a : α}
    (h : g.on s = .ok (.ok a, t)) : (g >>= f).on s = (f a).on t := by
  rw [on_bind, h]

theorem on_bind_of_error {g : Guarded σ α} {f : α → Guarded σ β} {s t : σ} {e : Error}
    (h : g.on s = .ok (.error e, t)) : (g >>= f).on s = .ok (.error e, t) := by
  rw [on_bind, h]

end Guarded

end ClientTable
