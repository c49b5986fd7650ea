import ClientTable.Attempt
import ClientTable.Text.Utf8

namespace ClientTable

/-- The word whose low `count` bits are those of `word` and whose other bits repeat the highest of
them. -/
def signExtend (word : BitVec 64) (count : Nat) : BitVec 64 :=
  if count = 0 ∨ 64 ≤ count then word else (word.setWidth count).signExtend 64

/-- A byte string with a cursor, which counts bits. -/
structure BitReader where
  data : Bytes
  cursor : Nat
  deriving DecidableEq, Repr

namespace BitReader

def ofBytes (data : Bytes) : BitReader :=
  ⟨data, 0⟩

def size (r : BitReader) : Nat :=
  8 * r.data.length

/-- The number that `count` bits from `offset` on spell, the first bit being the lowest. Nine bytes
hold any 64 neighbouring bits. -/
def bitsAt (data : Bytes) (offset count : Nat) : Nat :=
  (BitVec.ofNat count (littleEndian ((data.drop (offset / 8)).take 9) >>> (offset % 8))).toNat

/-- The number that `count` bits from `offset` on spell. -/
def readAt (r : BitReader) (offset count : Nat) : Except Error Nat :=
  if count < 1 ∨ 64 < count then throw (.invalid (.bitCount count))
  else if r.size < offset + count then
    throw (.invalid (.bitRange offset (offset + count) r.size))
  else return bitsAt r.data offset count

/-- The word whose low `count` bits stand at `offset`. The others are zero, or repeat the highest of
them where it is a sign. -/
def readWordAt (r : BitReader) (offset count : Nat) (signed : Bool) : Except Error (BitVec 64) := do
  let word := BitVec.ofNat 64 (← r.readAt offset count)
  return if signed then signExtend word count else word

end BitReader

/-- Reads that follow one another. -/
abbrev BitRead := Attempt BitReader

namespace BitRead

/-- The word whose low `count` bits stand at the cursor, which moves past them. -/
def word (count : Nat) (signed : Bool) : BitRead (BitVec 64) := do
  let r ← get
  let value ← r.readWordAt r.cursor count signed
  set { r with cursor := r.cursor + count }
  return value

/-- The text at the cursor, which moves past the zero byte that ends it. -/
def text : BitRead String := do
  let r ← get
  if r.cursor % 8 ≠ 0 then throw (.invalid (.unalignedText r.cursor))
  match terminated? (r.data.drop (r.cursor / 8)) with
  | none => throw (.invalid .unterminatedText)
  | some bytes =>
    set { r with cursor := r.cursor + 8 * (bytes.length + 1) }
    return Utf8.decode bytes

def reset : BitRead Unit :=
  modify fun r => { r with cursor := 0 }

theorem on_word (count : Nat) (signed : Bool) (r : BitReader) :
    (word count signed).on r =
      match r.readWordAt r.cursor count signed with
      | .ok value => (.ok value, { r with cursor := r.cursor + count })
      | .error e => (.error e, r) := by
  simp only [word, Attempt.on_bind, Attempt.on_get, Attempt.on_lift]
  cases r.readWordAt r.cursor count signed <;> rfl

theorem on_text_of_aligned {r : BitReader} (h : r.cursor % 8 = 0) :
    text.on r =
      match terminated? (r.data.drop (r.cursor / 8)) with
      | some bytes =>
        (.ok (Utf8.decode bytes), { r with cursor := r.cursor + 8 * (bytes.length + 1) })
      | none => (.error (.invalid .unterminatedText), r) := by
  simp only [text, Attempt.on_bind, Attempt.on_get, h]
  cases terminated? (r.data.drop (r.cursor / 8)) <;> rfl

theorem on_text_of_unaligned {r : BitReader} (h : r.cursor % 8 ≠ 0) :
    text.on r = (.error (.invalid (.unalignedText r.cursor)), r) := by
  simp only [text, Attempt.on_bind, Attempt.on_get]
  rw [if_pos h]
  rfl

end BitRead

end ClientTable
