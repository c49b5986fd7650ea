namespace ClientTable

/-- The first number that is no 32-bit word. -/
def wordLimit : Nat :=
  0x100000000

/-- The first number that is no 64-bit position. -/
def positionLimit : Nat :=
  0x10000000000000000

def total (numbers : List Nat) : Nat :=
  numbers.foldr Nat.add 0

@[simp]
theorem total_nil : total [] = 0 :=
  rfl

@[simp]
theorem total_cons (n : Nat) (numbers : List Nat) : total (n :: numbers) = n + total numbers :=
  rfl

theorem total_append (xs ys : List Nat) : total (xs ++ ys) = total xs + total ys := by
  induction xs with
  | nil => simp
  | cons x xs ih => simp [ih, Nat.add_assoc]

end ClientTable
