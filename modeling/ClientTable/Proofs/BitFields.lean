import ClientTable.Bytes.Lemmas
import ClientTable.Bits
import ClientTable.Quantity
import ClientTable.Value

namespace ClientTable

theorem littleEndian_drop (bytes : Bytes) (count : Nat) :
    littleEndian (bytes.drop count) = littleEndian bytes / 256 ^ count := by
  rcases Nat.lt_or_ge bytes.length count with hlt | hle
  · rw [List.drop_eq_nil_of_le (Nat.le_of_lt hlt)]
    have hsmall : littleEndian bytes < 256 ^ count :=
      Nat.lt_of_lt_of_le (littleEndian_lt bytes) (Nat.pow_le_pow_right (by decide) hlt.le)
    exact (Nat.div_eq_of_lt hsmall).symm
  · have hsplit := littleEndian_append (bytes.take count) (bytes.drop count)
    have hlow := littleEndian_lt (bytes.take count)
    rw [List.take_append_drop, List.length_take, Nat.min_eq_left hle] at hsplit
    rw [List.length_take, Nat.min_eq_left hle] at hlow
    rw [hsplit, Nat.add_mul_div_left _ _ (Nat.pow_pos (by decide)), Nat.div_eq_of_lt hlow,
      Nat.zero_add]

theorem littleEndian_take (bytes : Bytes) (count : Nat) :
    littleEndian (bytes.take count) = littleEndian bytes % 256 ^ count := by
  rcases Nat.lt_or_ge bytes.length count with hlt | hle
  · rw [List.take_of_length_le (Nat.le_of_lt hlt)]
    have hsmall : littleEndian bytes < 256 ^ count :=
      Nat.lt_of_lt_of_le (littleEndian_lt bytes) (Nat.pow_le_pow_right (by decide) hlt.le)
    exact (Nat.mod_eq_of_lt hsmall).symm
  · have hsplit := littleEndian_append (bytes.take count) (bytes.drop count)
    have hlow := littleEndian_lt (bytes.take count)
    rw [List.take_append_drop, List.length_take, Nat.min_eq_left hle] at hsplit
    rw [List.length_take, Nat.min_eq_left hle] at hlow
    rw [hsplit, Nat.add_mul_mod_self_left, Nat.mod_eq_of_lt hlow]

theorem BitReader.bitsAt_eq (data : Bytes) (offset : Nat) {count : Nat} (h : count ≤ 64) :
    bitsAt data offset count = littleEndian data / 2 ^ offset % 2 ^ count := by
  have hbyte : (256 : Nat) = 2 ^ 8 := rfl
  have hwindow : (2 : Nat) ^ (8 * 9) = 2 ^ (offset % 8 + (8 * 9 - offset % 8)) := by
    congr 1
    omega
  have hoffset : (2 : Nat) ^ (8 * (offset / 8)) * 2 ^ (offset % 8) = 2 ^ offset := by
    rw [← Nat.pow_add]
    congr 1
    omega
  have hcount : (2 : Nat) ^ count ∣ 2 ^ (8 * 9 - offset % 8) :=
    Nat.pow_dvd_pow 2 (by omega)
  rw [bitsAt, BitVec.toNat_ofNat, littleEndian_take, littleEndian_drop, hbyte, ← Nat.pow_mul,
    ← Nat.pow_mul, Nat.shiftRight_eq_div_pow, hwindow, Nat.pow_add, Nat.mod_mul_right_div_self,
    Nat.mod_mod_of_dvd _ hcount, Nat.div_div_eq_div_mul, hoffset]

/-- A group of bits. -/
structure BitField where
  width : Nat
  bits : BitVec width

namespace BitField

def widthOf (fields : List BitField) : Nat :=
  total (fields.map width)

/-- The number that groups of bits spell, the first group being the lowest. -/
def packed : List BitField → Nat
  | [] => 0
  | f :: fields => f.bits.toNat + 2 ^ f.width * packed fields

theorem widthOf_append (fields others : List BitField) :
    widthOf (fields ++ others) = widthOf fields + widthOf others := by
  simp only [widthOf, List.map_append, total_append]

theorem packed_lt (fields : List BitField) : packed fields < 2 ^ widthOf fields := by
  induction fields with
  | nil => exact Nat.one_pos
  | cons f fields ih =>
      have hf : f.bits.toNat < 2 ^ f.width := f.bits.isLt
      have hwidth : 2 ^ widthOf (f :: fields) = 2 ^ f.width * 2 ^ widthOf fields := by
        rw [← Nat.pow_add]
        rfl
      have hmul : 2 ^ f.width * (packed fields + 1) ≤ 2 ^ f.width * 2 ^ widthOf fields :=
        Nat.mul_le_mul_left _ ih
      rw [hwidth, packed]
      rw [Nat.mul_succ] at hmul
      omega

theorem packed_append (fields others : List BitField) :
    packed (fields ++ others) = packed fields + 2 ^ widthOf fields * packed others := by
  induction fields with
  | nil =>
      change packed others = 0 + 1 * packed others
      omega
  | cons f fields ih =>
      have hwidth : 2 ^ widthOf (f :: fields) = 2 ^ f.width * 2 ^ widthOf fields := by
        rw [← Nat.pow_add]
        rfl
      rw [List.cons_append, packed, packed, ih, hwidth, Nat.mul_add, Nat.add_assoc, Nat.mul_assoc]

theorem packed_div_mod (before : List BitField) (f : BitField) (behind : List BitField) :
    packed (before ++ f :: behind) / 2 ^ widthOf before % 2 ^ f.width = f.bits.toNat := by
  rw [packed_append, Nat.add_mul_div_left _ _ (Nat.two_pow_pos _),
    Nat.div_eq_of_lt (packed_lt before), Nat.zero_add, packed, Nat.add_mul_mod_self_left,
    Nat.mod_eq_of_lt f.bits.isLt]

/-- The bytes of a record of a given size that holds the groups. -/
def bytes (size : Nat) (fields : List BitField) : Bytes :=
  littleEndianBytes size (packed fields)

theorem length_bytes (size : Nat) (fields : List BitField) : (bytes size fields).length = size :=
  length_littleEndianBytes size _

theorem littleEndian_bytes {size : Nat} {fields : List BitField}
    (h : widthOf fields ≤ 8 * size) : littleEndian (bytes size fields) = packed fields := by
  refine littleEndian_littleEndianBytes (Nat.lt_of_lt_of_le (packed_lt fields) ?_)
  rw [show 256 = 2 ^ 8 from rfl, ← Nat.pow_mul]
  exact Nat.pow_le_pow_right (by decide) h

/-- The group stands in the bytes at a bit. -/
def StoredAt (data : Bytes) (offset : Nat) (f : BitField) : Prop :=
  offset + f.width ≤ 8 * data.length ∧ littleEndian data / 2 ^ offset % 2 ^ f.width = f.bits.toNat

theorem storedAt_bytes {size : Nat} {before : List BitField} {f : BitField}
    {behind : List BitField} (h : widthOf (before ++ f :: behind) ≤ 8 * size) :
    StoredAt (bytes size (before ++ f :: behind)) (widthOf before) f := by
  constructor
  · have hwidth : widthOf (before ++ f :: behind) =
        widthOf before + (f.width + widthOf behind) := widthOf_append before (f :: behind)
    rw [length_bytes]
    omega
  · rw [littleEndian_bytes h]
    exact packed_div_mod before f behind

def AllStored (data : Bytes) : (offset : Nat) → List BitField → Prop
  | _, [] => True
  | offset, f :: fields => StoredAt data offset f ∧ AllStored data (offset + f.width) fields

theorem allStored_append {data : Bytes} {offset : Nat} {fields others : List BitField} :
    AllStored data offset (fields ++ others) ↔
      AllStored data offset fields ∧ AllStored data (offset + widthOf fields) others := by
  induction fields generalizing offset with
  | nil =>
      constructor
      · intro h
        exact ⟨trivial, h⟩
      · rintro ⟨_, h⟩
        exact h
  | cons f fields ih =>
      have hwidth : offset + widthOf (f :: fields) = offset + f.width + widthOf fields :=
        (Nat.add_assoc ..).symm
      rw [List.cons_append, AllStored, AllStored, ih, hwidth, and_assoc]

theorem allStored_bytes_append {size : Nat} {before fields : List BitField}
    (h : widthOf (before ++ fields) ≤ 8 * size) :
    AllStored (bytes size (before ++ fields)) (widthOf before) fields := by
  induction fields generalizing before with
  | nil => trivial
  | cons f fields ih =>
      have hsplit : before ++ f :: fields = (before ++ [f]) ++ fields := by simp
      have hwidth : widthOf (before ++ [f]) = widthOf before + f.width := by
        rw [widthOf_append]
        rfl
      refine ⟨storedAt_bytes h, ?_⟩
      rw [hsplit] at h ⊢
      rw [← hwidth]
      exact ih h

theorem allStored_bytes {size : Nat} {fields : List BitField} (h : widthOf fields ≤ 8 * size) :
    AllStored (bytes size fields) 0 fields :=
  @allStored_bytes_append size [] fields h

def word (f : BitField) (signed : Bool) : BitVec 64 :=
  if signed then f.bits.signExtend 64 else f.bits.setWidth 64

theorem StoredAt.readAt {r : BitReader} {offset : Nat} {f : BitField}
    (h : StoredAt r.data offset f) (hpositive : 1 ≤ f.width) (hsmall : f.width ≤ 64) :
    r.readAt offset f.width = .ok f.bits.toNat := by
  have hwidth : ¬ (f.width < 1 ∨ 64 < f.width) := by omega
  have hinside : ¬ r.size < offset + f.width := Nat.not_lt.mpr h.1
  unfold BitReader.readAt
  rw [if_neg hwidth, if_neg hinside, BitReader.bitsAt_eq _ _ hsmall, h.2]
  rfl

theorem StoredAt.readWordAt {r : BitReader} {offset : Nat} {f : BitField}
    (h : StoredAt r.data offset f) (hpositive : 1 ≤ f.width) (hsmall : f.width ≤ 64)
    (signed : Bool) : r.readWordAt offset f.width signed = .ok (f.word signed) := by
  unfold BitReader.readWordAt
  rw [h.readAt hpositive hsmall]
  change Except.ok _ = Except.ok _
  rw [BitVec.ofNat_toNat]
  cases signed with
  | false => rfl
  | true =>
      congr 1
      rw [if_pos rfl, signExtend, word, if_pos rfl]
      split
      case isTrue hfull =>
        have hwidth : f.width = 64 := by omega
        obtain ⟨width, bits⟩ := f
        subst hwidth
        exact (BitVec.setWidth_eq bits).trans (BitVec.signExtend_eq bits).symm
      case isFalse =>
        rw [BitVec.setWidth_setWidth_of_le _ hsmall, BitVec.setWidth_eq]

end BitField

def Scalar.ofInt (kind : IntKind) (n : Int) : Scalar :=
  .int kind (BitVec.ofInt kind.bits n)

/-- The integers that a number of bits can hold. -/
def Holdable (bits : Nat) (signed : Bool) (n : Int) : Prop :=
  if signed then -(2 : Int) ^ (bits - 1) ≤ n ∧ n < 2 ^ (bits - 1) else 0 ≤ n ∧ n < 2 ^ bits

instance (width : Nat) (signed : Bool) (n : Int) : Decidable (Holdable width signed n) :=
  inferInstanceAs (Decidable (if signed then _ ∧ _ else _ ∧ _))

theorem IntKind.bits_le (kind : IntKind) : kind.bits ≤ 64 := by
  unfold bits
  cases kind.width <;> decide

theorem setWidth_ofInt {narrow wide : Nat} (h : narrow ≤ wide) (n : Int) :
    (BitVec.ofInt wide n).setWidth narrow = BitVec.ofInt narrow n := by
  have hdvd : ((2 ^ narrow : Nat) : Int) ∣ ((2 ^ wide : Nat) : Int) :=
    Int.natCast_dvd_natCast.mpr (Nat.pow_dvd_pow 2 h)
  have hnonneg : 0 ≤ n % ((2 ^ wide : Nat) : Int) :=
    Int.emod_nonneg _ (by positivity)
  refine BitVec.eq_of_toNat_eq ?_
  rw [BitVec.toNat_setWidth, BitVec.toNat_ofInt, BitVec.toNat_ofInt]
  refine Int.ofNat_inj.mp ?_
  rw [Int.natCast_emod, Int.toNat_of_nonneg hnonneg,
    Int.toNat_of_nonneg (Int.emod_nonneg _ (by positivity))]
  exact Int.emod_emod_of_dvd n hdvd

theorem BitField.word_ofInt {width : Nat} (hpositive : 1 ≤ width) (hsmall : width ≤ 64)
    {signed : Bool} {n : Int} (hheld : Holdable width signed n) :
    word ⟨width, BitVec.ofInt width n⟩ signed = BitVec.ofInt 64 n := by
  cases signed with
  | true =>
      obtain ⟨hlow, hhigh⟩ : -(2 : Int) ^ (width - 1) ≤ n ∧ n < 2 ^ (width - 1) := hheld
      have htoInt := BitVec.toInt_ofInt_eq_self hpositive hlow hhigh
      rw [word, if_pos rfl, BitVec.signExtend, htoInt]
  | false =>
      obtain ⟨hlow, hhigh⟩ : 0 ≤ n ∧ n < 2 ^ width := hheld
      have hwide : n < 2 ^ 64 := lt_of_lt_of_le hhigh (pow_le_pow_right₀ (by decide) hsmall)
      refine BitVec.eq_of_toNat_eq ?_
      change ((BitVec.ofInt width n).setWidth 64).toNat = _
      rw [BitVec.toNat_setWidth, BitVec.toNat_ofInt, BitVec.toNat_ofInt,
        Int.emod_eq_of_lt hlow (by exact_mod_cast hhigh),
        Int.emod_eq_of_lt hlow (by exact_mod_cast hwide)]
      exact Nat.mod_eq_of_lt (by omega)

/-- Whether a field of bits is read with its sign does not matter if it is as wide as its kind. -/
theorem Scalar.ofWord_word {kind : IntKind} {width : Nat} (hpositive : 1 ≤ width)
    (hwide : width ≤ kind.bits) {signed : Bool} {n : Int}
    (hheld : Holdable width kind.signed n) (hsign : signed = kind.signed ∨ width = kind.bits) :
    ofWord (BitField.word ⟨width, BitVec.ofInt width n⟩ signed) (.int kind) =
      .ok (ofInt kind n) := by
  have hsmall := kind.bits_le
  have hword : (BitField.word ⟨width, BitVec.ofInt width n⟩ signed).setWidth kind.bits =
      BitVec.ofInt kind.bits n := by
    rcases hsign with rfl | hfull
    · rw [BitField.word_ofInt hpositive (by omega) hheld, setWidth_ofInt hsmall]
    · subst hfull
      cases signed with
      | false =>
          change ((BitVec.ofInt kind.bits n).setWidth 64).setWidth kind.bits = _
          rw [BitVec.setWidth_setWidth_of_le _ hsmall, BitVec.setWidth_eq]
      | true =>
          change ((BitVec.ofInt kind.bits n).signExtend 64).setWidth kind.bits = _
          rw [BitVec.signExtend, setWidth_ofInt hsmall, BitVec.ofInt_toInt]
  change Except.ok (Scalar.int kind _) = _
  rw [hword]
  rfl

theorem Scalar.toWord?_int {kind : IntKind} {bits : BitVec kind.bits}
    (hlow : 0 ≤ kind.toInt bits) (hword : kind.toInt bits < wordLimit) :
    (int kind bits).toWord? = some (UInt32.ofNat (kind.toInt bits).toNat) := by
  have hsmall : kind.toInt bits < 0x100000000 := hword
  have hmiddle : kind.toInt bits < 0x8000000000000000 := by omega
  simp only [toWord?, toInt?, if_pos hmiddle]
  rw [if_pos ⟨hlow, hsmall⟩]

theorem Scalar.toWord?_ofInt {kind : IntKind} (hunsigned : kind.signed = false) {n : Int}
    (hlow : 0 ≤ n) (hheld : n < 2 ^ kind.bits) (hword : n < wordLimit) :
    (ofInt kind n).toWord? = some (UInt32.ofNat n.toNat) := by
  have htoNat : (BitVec.ofInt kind.bits n).toNat = n.toNat := by
    rw [BitVec.toNat_ofInt, Int.emod_eq_of_lt hlow (by exact_mod_cast hheld)]
  have htoInt : kind.toInt (BitVec.ofInt kind.bits n) = n := by
    rw [IntKind.toInt, hunsigned, htoNat]
    exact Int.toNat_of_nonneg hlow
  unfold ofInt
  rw [toWord?_int (by rwa [htoInt]) (by rwa [htoInt]), htoInt]

theorem Scalar.toWord?_u32 (key : UInt32) :
    (int ⟨.w32, false⟩ key.toBitVec).toWord? = some key := by
  have hlow : 0 ≤ IntKind.toInt ⟨.w32, false⟩ key.toBitVec := Int.natCast_nonneg _
  have hword : IntKind.toInt ⟨.w32, false⟩ key.toBitVec < wordLimit :=
    Int.ofNat_lt.mpr key.toNat_lt
  exact (toWord?_int hlow hword).trans (congrArg some UInt32.ofNat_toNat)

theorem Scalar.ofWord_u32 (key : UInt32) :
    ofWord (key.toBitVec.setWidth 64) .u32 = .ok (.int ⟨.w32, false⟩ key.toBitVec) := by
  change Except.ok (int ⟨.w32, false⟩ ((key.toBitVec.setWidth 64).setWidth 32)) = _
  rw [BitVec.setWidth_setWidth_of_le _ (by decide), BitVec.setWidth_eq]

end ClientTable
