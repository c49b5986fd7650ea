import ClientTable.Descriptor.FieldInfo
import ClientTable.Proofs.Columns

namespace ClientTable

open Attempt

/-- A column of elements of whole bytes. -/
structure ByteColumn where
  /-- The bytes of one element. -/
  size : Nat
  arity : Nat
  size_pos : 1 ≤ size
  size_le : size ≤ 8
  arity_pos : 1 ≤ arity

namespace ByteColumn

/-- A column of elements of `size` bytes, or of the nearest number from 1 to 8. One of none counts
as one of one. -/
def ofSize (size arity : Nat) : ByteColumn where
  size := max 1 (min size 8)
  arity := max arity 1
  size_pos := Nat.le_max_left ..
  size_le := Nat.max_le.mpr ⟨Nat.le_add_left .., Nat.min_le_right ..⟩
  arity_pos := Nat.le_max_right ..

def bits (c : ByteColumn) : Nat :=
  8 * c.size

def length (c : ByteColumn) : Nat :=
  c.size * c.arity

def resize (c : ByteColumn) (arity : Nat) : ByteColumn :=
  { c with arity := max arity 1, arity_pos := Nat.le_max_right .. }

def single (c : ByteColumn) : ByteColumn :=
  c.resize 1

def infos : (position : Nat) → List ByteColumn → List FieldInfo
  | _, [] => []
  | position, c :: columns =>
    ⟨32 - UInt16.ofNat c.bits, UInt16.ofNat position⟩ :: infos (position + c.length) columns

def descriptors : (position : Nat) → List ByteColumn → List Descriptor
  | _, [] => []
  | position, c :: columns =>
    ⟨8 * position, c.bits, c.arity, .plain false⟩ :: descriptors (position + c.length) columns

def stop : (position : Nat) → List ByteColumn → Nat
  | position, [] => position
  | position, c :: columns => stop (position + c.length) columns

/-- Every column starts at a byte whose position fits its word. -/
def AllNear : (position : Nat) → List ByteColumn → Prop
  | _, [] => True
  | position, c :: columns => position < 0x10000 ∧ AllNear (position + c.length) columns

instance decidableAllNear : (position : Nat) → DecidablePred (AllNear position)
  | _, [] => inferInstanceAs (Decidable True)
  | position, c :: columns =>
    have := decidableAllNear (position + c.length) columns
    inferInstanceAs (Decidable (position < 0x10000 ∧ _))

/-- How many elements a column is found to have that starts at a byte and is the last one. -/
def lastArity (c : ByteColumn) (h : Header) (position : Nat) : Nat :=
  if h.hasOffsetMap then 1 else (h.recordBits - 8 * position) / c.bits % wordLimit

theorem bits_pos (c : ByteColumn) : 1 ≤ c.bits := by
  have hpositive := c.size_pos
  unfold bits
  omega

theorem bits_le (c : ByteColumn) : c.bits ≤ 64 := by
  have hsmall := c.size_le
  unfold bits
  omega

theorem bits_mul (c : ByteColumn) (count : Nat) : c.bits * count = 8 * (c.size * count) :=
  Nat.mul_assoc ..

theorem max_arity (c : ByteColumn) : max c.arity 1 = c.arity :=
  Nat.max_eq_left c.arity_pos

theorem resize_arity (c : ByteColumn) : c.resize c.arity = c := by
  unfold resize
  congr
  exact c.max_arity

theorem stop_append (position : Nat) (columns others : List ByteColumn) :
    stop position (columns ++ others) = stop (stop position columns) others := by
  induction columns generalizing position with
  | nil => rfl
  | cons c columns ih => exact ih _

theorem descriptors_append (position : Nat) (columns others : List ByteColumn) :
    descriptors position (columns ++ others) =
      descriptors position columns ++ descriptors (stop position columns) others := by
  induction columns generalizing position with
  | nil => rfl
  | cons c columns ih => exact congrArg (_ :: ·) (ih _)

theorem length_descriptors (position : Nat) (columns : List ByteColumn) :
    (descriptors position columns).length = columns.length := by
  induction columns generalizing position with
  | nil => rfl
  | cons c columns ih => exact congrArg (· + 1) (ih _)

theorem bitOffset_info {position : Nat} (hnear : position < 0x10000) (missingBits : UInt16) :
    (FieldInfo.mk missingBits (UInt16.ofNat position)).bitOffset = 8 * position := by
  rw [FieldInfo.bitOffset, UInt16.toNat_ofNat_of_lt' hnear, Nat.mul_comm]

theorem elements_of_cons {h : Header} {index position : Nat} {c next : ByteColumn}
    {columns : List ByteColumn} (hnear : AllNear position (c :: next :: columns)) :
    (FieldInfo.mk (32 - UInt16.ofNat c.bits) (UInt16.ofNat position)).elements h index c.bits
      (infos (position + c.length) (next :: columns)) = .ok c.arity := by
  obtain ⟨hfirst, hnext, -⟩ := hnear
  have hordered : ¬ UInt16.ofNat (position + c.length) < UInt16.ofNat position := by
    rw [UInt16.lt_iff_toNat_lt, UInt16.toNat_ofNat_of_lt' hfirst, UInt16.toNat_ofNat_of_lt' hnext]
    omega
  have hgap : 8 * (position + c.length) - 8 * position = c.bits * c.arity := by
    rw [bits_mul, length]
    omega
  rw [infos, FieldInfo.elements, if_neg hordered, bitOffset_info hnext, bitOffset_info hfirst, hgap,
    Nat.mul_div_cancel_left _ c.bits_pos]
  rfl

theorem elements_of_nil {h : Header} {index position : Nat} {c : ByteColumn}
    (hnear : position < 0x10000) :
    (FieldInfo.mk (32 - UInt16.ofNat c.bits) (UInt16.ofNat position)).elements h index c.bits [] =
      .ok (c.lastArity h position) := by
  rw [FieldInfo.elements, bitOffset_info hnear, lastArity]
  split <;> rfl

/-- All columns are found again, and the number of their elements for all but the last. -/
theorem descriptors_infos {h : Header} {index position : Nat} {columns : List ByteColumn}
    {last : ByteColumn} (hnear : AllNear position (columns ++ [last])) :
    FieldInfo.descriptors h index (infos position (columns ++ [last])) =
      .ok (descriptors position
        (columns ++ [last.resize (last.lastArity h (stop position columns))])) := by
  -- One entry gives one column, once it is known how many elements it has.
  have hinfo {index position count : Nat} {c : ByteColumn} {rest : List FieldInfo}
      {others : List Descriptor} (hposition : position < 0x10000)
      (hcount : (FieldInfo.mk (32 - UInt16.ofNat c.bits) (UInt16.ofNat position)).elements h index
        c.bits rest = .ok count)
      (hothers : FieldInfo.descriptors h (index + 1) rest = .ok others) :
      FieldInfo.descriptors h index
        (⟨32 - UInt16.ofNat c.bits, UInt16.ofNat position⟩ :: rest) =
          .ok (⟨8 * position, c.bits, max count 1, .plain false⟩ :: others) := by
    have hbits := Column.bitSize_fieldInfo c.bits_pos c.bits_le (UInt16.ofNat position)
    rw [← bitOffset_info hposition (32 - UInt16.ofNat c.bits)]
    exact bind_eq_ok.mpr ⟨_, hbits, bind_eq_ok.mpr ⟨_, hcount, bind_eq_ok.mpr ⟨_, hothers, rfl⟩⟩⟩
  induction columns generalizing index position with
  | nil => exact hinfo hnear.1 (elements_of_nil hnear.1) rfl
  | cons c columns ih =>
      have hcount : (FieldInfo.mk (32 - UInt16.ofNat c.bits) (UInt16.ofNat position)).elements h
          index c.bits (infos (position + c.length) (columns ++ [last])) = .ok c.arity := by
        obtain ⟨next, rest, hrest⟩ : ∃ next rest, columns ++ [last] = next :: rest :=
          List.exists_cons_of_ne_nil (by simp)
        rw [List.cons_append, hrest] at hnear
        rw [hrest]
        exact elements_of_cons hnear
      have hdescriptors := hinfo hnear.1 hcount (ih hnear.2)
      rwa [max_arity] at hdescriptors

end ByteColumn

end ClientTable
