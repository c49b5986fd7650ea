import ClientTable.Attempt

/-!
Reading words off a byte string from front to back. A word that is not complete fails and uses up
the bytes that were there.
-/

namespace ClientTable

/-- What is left of a byte string, and how many bytes came before. -/
structure Input where
  rest : Bytes
  position : Nat
  deriving DecidableEq, Repr

def Input.ofBytes (bytes : Bytes) : Input :=
  ⟨bytes, 0⟩

/-- A computation that reads from the front of an input. -/
abbrev Parse := Attempt Input

namespace Parse

/-- The next `count` bytes. -/
def take (count : Nat) : Parse Bytes := do
  let input ← get
  let found := input.rest.take count
  set (Input.mk (input.rest.drop count) (input.position + found.length))
  if found.length < count then throw .endOfInput else return found

/-- The number that the next `width` bytes spell. -/
def number (width : Nat) : Parse Nat := do
  return littleEndian (← take width)

def u8 : Parse UInt8 := do
  return UInt8.ofNat (← number 1)

def u16 : Parse UInt16 := do
  return UInt16.ofNat (← number 2)

def u32 : Parse UInt32 := do
  return UInt32.ofNat (← number 4)

def u64 : Parse UInt64 := do
  return UInt64.ofNat (← number 8)

def position : Parse Nat := do
  return (← get).position

/-- `count` items one after the other; the first that fails ends the reading. -/
def many {α : Type} (item : Parse α) : (count : Nat) → Parse (List α)
  | 0 => return []
  | count + 1 => do
    let first ← item
    let others ← many item count
    return first :: others

def decode {α : Type} (item : Parse α) (bytes : Bytes) : Except Error α :=
  (item.on (Input.ofBytes bytes)).1

theorem on_take_of_le {count : Nat} {input : Input} (h : count ≤ input.rest.length) :
    (take count).on input =
      (.ok (input.rest.take count), ⟨input.rest.drop count, input.position + count⟩) := by
  have hlen : (input.rest.take count).length = count := by
    rw [List.length_take, Nat.min_eq_left h]
  simp only [take, Attempt.on_bind, Attempt.on_get, Attempt.on_set, hlen]
  rw [if_neg (Nat.lt_irrefl count)]
  rfl

theorem on_take_of_lt {count : Nat} {input : Input} (h : input.rest.length < count) :
    (take count).on input =
      (.error .endOfInput, ⟨[], input.position + input.rest.length⟩) := by
  have hlen : (input.rest.take count).length = input.rest.length := by
    rw [List.length_take, Nat.min_eq_right (Nat.le_of_lt h)]
  simp only [take, Attempt.on_bind, Attempt.on_get, Attempt.on_set, hlen]
  rw [if_pos h, List.drop_eq_nil_of_le (Nat.le_of_lt h)]
  rfl

theorem on_take_append (bytes rest : Bytes) (position : Nat) :
    (take bytes.length).on ⟨bytes ++ rest, position⟩ =
      (.ok bytes, ⟨rest, position + bytes.length⟩) := by
  rw [on_take_of_le (by simp)]
  simp

@[simp]
theorem on_many_zero {α : Type} (item : Parse α) (input : Input) :
    (many item 0).on input = (.ok [], input) :=
  rfl

theorem on_many_succ {α : Type} {item : Parse α} {count : Nat} {input next : Input} {first : α}
    (h : item.on input = (.ok first, next)) :
    (many item (count + 1)).on input =
      (((many item count).on next).1.map (first :: ·), ((many item count).on next).2) := by
  rw [many, Attempt.on_bind_of_ok h, Attempt.on_bind]
  rcases (many item count).on next with ⟨_ | others, after⟩ <;> rfl

end Parse

end ClientTable
