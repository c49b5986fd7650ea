import Mathlib
import ClientTable.Bytes

namespace ClientTable

theorem littleEndian_lt (bs : Bytes) : littleEndian bs < 256 ^ bs.length := by
  induction bs with
  | nil => simp [littleEndian]
  | cons b bs ih =>
    have hb : b.toNat < 256 := b.toNat_lt
    simp only [littleEndian, List.length_cons, Nat.pow_succ]
    omega

theorem littleEndian_littleEndianBytes {width n : Nat} (h : n < 256 ^ width) :
    littleEndian (littleEndianBytes width n) = n := by
  induction width generalizing n with
  | zero =>
    have hn : n = 0 := by simpa using h
    rw [hn]
    rfl
  | succ width ih =>
    have hn : n / 256 < 256 ^ width := by
      rw [Nat.pow_succ] at h
      omega
    simp only [littleEndianBytes, littleEndian, ih hn, UInt8.toNat_ofNat']
    omega

theorem littleEndian_append (xs ys : Bytes) :
    littleEndian (xs ++ ys) = littleEndian xs + 256 ^ xs.length * littleEndian ys := by
  induction xs with
  | nil => simp [littleEndian]
  | cons x xs ih =>
    simp only [List.cons_append, littleEndian, ih, List.length_cons, Nat.pow_succ]
    ring

end ClientTable
