import ClientTable.Proofs.BitFields

namespace ClientTable

/-- A number of some kind, by its bits. -/
inductive Number where
  | int (kind : IntKind) (bits : BitVec kind.bits)
  | f32 (bits : BitVec 32)
  | f64 (bits : BitVec 64)
  deriving DecidableEq

def FieldKind.size (kind : FieldKind) : Nat :=
  kind.bits / 8

namespace FieldKind

theorem bits_eq (kind : FieldKind) : kind.bits = 8 * kind.size := by
  cases kind with
  | int kind =>
      obtain ⟨width, signed⟩ := kind
      cases signed <;> cases width <;> decide
  | _ => decide

theorem size_bounds (kind : FieldKind) : 1 ≤ kind.size ∧ kind.size ≤ 8 := by
  cases kind with
  | int kind =>
      obtain ⟨width, signed⟩ := kind
      cases signed <;> cases width <;> decide
  | _ => decide

theorem bits_bounds (kind : FieldKind) : 1 ≤ kind.bits ∧ kind.bits ≤ 64 := by
  have hsize := kind.size_bounds
  rw [kind.bits_eq]
  omega

end FieldKind

/-- A group of whole bytes stands where its bytes do. -/
theorem BitField.storedAt_of_prefix {data : Bytes} {start size : Nat} {f : BitField}
    (hwidth : f.width = 8 * size) (hpositive : 0 < size)
    (hbytes : littleEndianBytes size f.bits.toNat <+: data.drop start) :
    f.StoredAt data (8 * start) := by
  obtain ⟨width, bits⟩ := f
  obtain rfl : width = 8 * size := hwidth
  obtain ⟨rest, hrest⟩ := hbytes
  have hbyte : (2 : Nat) ^ 8 = 256 := rfl
  have hsmall : bits.toNat < 256 ^ size := by
    have hlt := bits.isLt
    rwa [Nat.pow_mul] at hlt
  have hvalue : littleEndian data / 256 ^ start =
      bits.toNat + 256 ^ size * littleEndian rest := by
    rw [← littleEndian_drop, ← hrest, littleEndian_append,
      littleEndian_littleEndianBytes hsmall, length_littleEndianBytes]
  have hlength := congrArg List.length hrest
  simp only [List.length_append, length_littleEndianBytes, List.length_drop] at hlength
  constructor
  · change 8 * start + 8 * size ≤ 8 * data.length
    omega
  · change littleEndian data / 2 ^ (8 * start) % 2 ^ (8 * size) = bits.toNat
    rw [Nat.pow_mul, Nat.pow_mul, hbyte, hvalue, Nat.add_mul_mod_self_left,
      Nat.mod_eq_of_lt hsmall]

namespace Number

def kind : Number → FieldKind
  | int kind _ => .int kind
  | f32 _ => .f32
  | f64 _ => .f64

def scalar : Number → Scalar
  | int kind bits => .int kind bits
  | f32 bits => .f32 bits
  | f64 bits => .f64 bits

def field : Number → BitField
  | int kind bits => ⟨kind.bits, bits⟩
  | f32 bits => ⟨32, bits⟩
  | f64 bits => ⟨64, bits⟩

def bytes (n : Number) : Bytes :=
  littleEndianBytes n.kind.size n.field.bits.toNat

theorem kind_ne_text (n : Number) : n.kind ≠ .text := by
  cases n <;> nofun

theorem width_field (n : Number) : n.field.width = n.kind.bits := by
  cases n <;> rfl

@[simp]
theorem length_bytes (n : Number) : n.bytes.length = n.kind.size :=
  length_littleEndianBytes n.kind.size _

theorem storedAt {n : Number} {data : Bytes} {start : Nat} (h : n.bytes <+: data.drop start) :
    n.field.StoredAt data (8 * start) :=
  BitField.storedAt_of_prefix (n.width_field.trans n.kind.bits_eq) n.kind.size_bounds.1 h

theorem setWidth_word {width : Nat} (hsmall : width ≤ 64) (bits : BitVec width) (signed : Bool) :
    (BitField.word ⟨width, bits⟩ signed).setWidth width = bits := by
  cases signed with
  | false =>
      change (bits.setWidth 64).setWidth width = bits
      rw [BitVec.setWidth_setWidth_of_le _ hsmall, BitVec.setWidth_eq]
  | true =>
      change (bits.signExtend 64).setWidth width = bits
      rw [BitVec.signExtend, setWidth_ofInt hsmall, BitVec.ofInt_toInt]

theorem ofWord_field (n : Number) (signed : Bool) :
    Scalar.ofWord (n.field.word signed) n.kind = .ok n.scalar := by
  cases n with
  | int kind bits =>
      exact congrArg (fun bits => Except.ok (Scalar.int kind bits))
        (setWidth_word kind.bits_le bits signed)
  | f32 bits =>
      exact congrArg (fun bits => Except.ok (Scalar.f32 bits))
        (setWidth_word (by decide) bits signed)
  | f64 bits =>
      have hword := setWidth_word (Nat.le_refl 64) bits signed
      rw [BitVec.setWidth_eq] at hword
      exact congrArg (fun bits => Except.ok (Scalar.f64 bits)) hword

end Number

end ClientTable
