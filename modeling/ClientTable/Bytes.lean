namespace ClientTable

abbrev Bytes := List UInt8

/-- The number whose base-256 digits, lowest first, are the bytes. -/
def littleEndian : Bytes → Nat
  | [] => 0
  | b :: bs => b.toNat + 256 * littleEndian bs

/-- The bytes before the first zero byte, if there is one. -/
def terminated? : Bytes → Option Bytes
  | [] => none
  | b :: bs => if b = 0 then some [] else (terminated? bs).map (b :: ·)

/-- The lowest `width` base-256 digits of a number, lowest first. -/
def littleEndianBytes : (width : Nat) → Nat → Bytes
  | 0, _ => []
  | width + 1, n => UInt8.ofNat n :: littleEndianBytes width (n / 256)

def wordBytes (word : UInt32) : Bytes :=
  littleEndianBytes 4 word.toNat

@[simp]
theorem length_littleEndianBytes (width n : Nat) : (littleEndianBytes width n).length = width := by
  induction width generalizing n with
  | zero => rfl
  | succ width ih => simp [littleEndianBytes, ih]

end ClientTable
