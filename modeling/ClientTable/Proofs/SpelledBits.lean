import ClientTable.Proofs.Gathering

namespace ClientTable

open Attempt

/-- The bit at a position: eight of them to a byte, the lowest first. Behind the bytes none is set.
-/
def bitAt (data : Bytes) (position : Nat) : Bool :=
  (data.getD (position / 8) 0).toNat.testBit (position % 8)

/-- The number that `count` bits from `offset` on spell, each bit worth twice the one before it. -/
def spelled (data : Bytes) (offset count : Nat) : Nat :=
  ∑ i ∈ Finset.range count, (bitAt data (offset + i)).toNat * 2 ^ i

theorem testBit_littleEndian (data : Bytes) (position : Nat) :
    (littleEndian data).testBit position = bitAt data position := by
  induction data generalizing position with
  | nil => simp [littleEndian, bitAt]
  | cons b data ih =>
      have hb : b.toNat < 2 ^ 8 := b.toNat_lt
      have hsplit : littleEndian (b :: data) = 2 ^ 8 * littleEndian data + b.toNat :=
        Nat.add_comm ..
      rw [hsplit, Nat.testBit_two_pow_mul_add _ hb]
      split
      case isTrue hfirst =>
        rw [bitAt, Nat.div_eq_of_lt hfirst, Nat.mod_eq_of_lt hfirst]
        rfl
      case isFalse hrest =>
        have hbyte : position / 8 = (position - 8) / 8 + 1 := by omega
        have hplace : position % 8 = (position - 8) % 8 := by omega
        rw [ih, bitAt, bitAt, hbyte, hplace, List.getD_cons_succ]

theorem sum_testBit (n count : Nat) :
    ∑ i ∈ Finset.range count, (n.testBit i).toNat * 2 ^ i = n % 2 ^ count := by
  induction count with
  | zero => exact (Nat.mod_one n).symm
  | succ count ih =>
      rw [Finset.sum_range_succ, ih, Nat.pow_succ, Nat.mod_mul, Nat.toNat_testBit, Nat.mul_comm]

theorem spelled_eq (data : Bytes) (offset count : Nat) :
    spelled data offset count = littleEndian data / 2 ^ offset % 2 ^ count := by
  rw [← sum_testBit]
  refine Finset.sum_congr rfl fun i _ => ?_
  rw [Nat.testBit_div_two_pow, testBit_littleEndian, Nat.add_comm]

theorem spelled_lt (data : Bytes) (offset count : Nat) : spelled data offset count < 2 ^ count := by
  rw [spelled_eq]
  exact Nat.mod_lt _ (Nat.two_pow_pos count)

theorem spelled_add (data : Bytes) (offset low high : Nat) :
    spelled data offset (low + high) =
      spelled data offset low + 2 ^ low * spelled data (offset + low) high := by
  unfold spelled
  rw [Finset.sum_range_add, Finset.mul_sum]
  refine congrArg _ (Finset.sum_congr rfl fun i _ => ?_)
  rw [Nat.add_assoc, Nat.pow_add]
  ring

/-- From 1 to 64 bits that are all there. -/
structure InBytes (data : Bytes) (offset count : Nat) : Prop where
  positive : 1 ≤ count
  small : count ≤ 64
  inside : offset + count ≤ 8 * data.length

/-- The integer that a number of `count` bits stands for if the highest of them is a sign. -/
def StandsFor (count number : Nat) (n : Int) : Prop :=
  Holdable count true n ∧ n ≡ number [ZMOD 2 ^ count]

theorem standsFor_iff {count : Nat} (hpositive : 1 ≤ count) (number : Nat) (n : Int) :
    StandsFor count number n ↔ n = (BitVec.ofNat count number).toInt := by
  have hcast : ((2 ^ count : Nat) : Int) = 2 ^ count := by exact_mod_cast rfl
  constructor
  · rintro ⟨⟨hlow, hhigh⟩, hmod⟩
    rw [← BitVec.toInt_ofInt_eq_self hpositive hlow hhigh]
    congr 1
    apply BitVec.eq_of_toNat_eq
    rw [BitVec.toNat_ofInt, BitVec.toNat_ofNat, hcast, hmod.eq, ← hcast]
    exact Int.toNat_natCast _
  · rintro rfl
    refine ⟨⟨BitVec.le_toInt _, BitVec.toInt_lt⟩, ?_⟩
    rw [BitVec.toInt_ofNat', Int.ModEq, ← hcast, Int.bmod_emod]

namespace BitReader

variable {r : BitReader} {offset count : Nat}

theorem readAt_of_inBytes (h : InBytes r.data offset count) :
    r.readAt offset count = .ok (spelled r.data offset count) := by
  have hwidth : ¬ (count < 1 ∨ 64 < count) := by
    have hpositive := h.positive
    have hsmall := h.small
    omega
  have hinside : ¬ r.size < offset + count := Nat.not_lt.mpr h.inside
  unfold readAt
  rw [if_neg hwidth, if_neg hinside, bitsAt_eq _ _ h.small, spelled_eq]
  rfl

theorem readAt_of_not_inBytes (h : ¬ InBytes r.data offset count) :
    ∃ fault, r.readAt offset count = .error (.invalid fault) := by
  unfold readAt
  split
  case isTrue => exact ⟨_, rfl⟩
  case isFalse hwidth =>
    have hlong : r.size < offset + count := by
      refine Nat.lt_of_not_le fun hinside => h ⟨?_, ?_, hinside⟩ <;> omega
    rw [if_pos hlong]
    exact ⟨_, rfl⟩

theorem readAt_eq_ok_iff {value : Nat} :
    r.readAt offset count = .ok value ↔
      InBytes r.data offset count ∧ value = spelled r.data offset count := by
  by_cases h : InBytes r.data offset count
  · rw [readAt_of_inBytes h, Except.ok.injEq, and_iff_right h, eq_comm]
  · obtain ⟨fault, hfault⟩ := readAt_of_not_inBytes h
    rw [hfault]
    exact iff_of_false nofun fun hboth => h hboth.1

theorem readWordAt_of_inBytes (h : InBytes r.data offset count) :
    r.readWordAt offset count true =
      .ok (BitVec.ofInt 64 (BitVec.ofNat count (spelled r.data offset count)).toInt) := by
  have hlt := spelled_lt r.data offset count
  have hstored : BitField.StoredAt r.data offset
      ⟨count, BitVec.ofNat count (spelled r.data offset count)⟩ := by
    refine ⟨h.inside, ?_⟩
    rw [BitVec.toNat_ofNat, Nat.mod_eq_of_lt hlt, spelled_eq]
  exact hstored.readWordAt h.positive h.small true

end BitReader

/-- Groups of bits stand side by side in the bytes, whatever is around them. -/
structure BitField.PackedAt (data : Bytes) (offset : Nat) (fields : List BitField) : Prop where
  inside : offset + widthOf fields ≤ 8 * data.length
  bits : ∀ i < widthOf fields, bitAt data (offset + i) = (packed fields).testBit i

theorem BitField.PackedAt.storedAt {data : Bytes} {offset : Nat} {before behind : List BitField}
    {f : BitField} (h : PackedAt data offset (before ++ f :: behind)) :
    StoredAt data (offset + widthOf before) f := by
  have hwidth : widthOf (before ++ f :: behind) =
      widthOf before + (f.width + widthOf behind) := widthOf_append before (f :: behind)
  have hinside := h.inside
  refine ⟨by omega, ?_⟩
  rw [← packed_div_mod before f behind]
  apply Nat.eq_of_testBit_eq
  intro i
  rw [Nat.testBit_mod_two_pow, Nat.testBit_mod_two_pow, Nat.testBit_div_two_pow,
    Nat.testBit_div_two_pow, testBit_littleEndian]
  by_cases hi : i < f.width
  · have hbit := h.bits (widthOf before + i) (by omega)
    rw [← Nat.add_assoc] at hbit
    rw [Nat.add_comm i, Nat.add_comm i, hbit]
  · rw [decide_eq_false hi, Bool.false_and, Bool.false_and]

namespace BitReader

/-- Reading bits gives the number that they spell, if they are there, and is an error if they are
not. With a sign it gives the one integer that they stand for. So two reads side by side make up
one, groups of bits are read back wherever they stand, and gathering the bits byte by byte comes to
the same as long as their positions are 64-bit numbers. -/
theorem reads_spelled (r : BitReader) (offset count : Nat) :
    ((∃ fault, r.readAt offset count = .error (.invalid fault)) ↔
      ¬ InBytes r.data offset count) ∧
    (InBytes r.data offset count →
      r.readAt offset count = .ok (spelled r.data offset count) ∧
      (∃! n, StandsFor count (spelled r.data offset count) n) ∧
      ∀ n, StandsFor count (spelled r.data offset count) n →
        r.readWordAt offset count true = .ok (BitVec.ofInt 64 n)) ∧
    (∀ low high value, 1 ≤ low → 1 ≤ high → low + high ≤ 64 →
      (r.readAt offset (low + high) = .ok value ↔
        ∃ first second, r.readAt offset low = .ok first ∧
          r.readAt (offset + low) high = .ok second ∧ value = first + 2 ^ low * second)) ∧
    (∀ before f behind, BitField.PackedAt r.data offset (before ++ f :: behind) →
      1 ≤ f.width → f.width ≤ 64 →
      r.readAt (offset + BitField.widthOf before) f.width = .ok f.bits.toNat) ∧
    (offset + count < positionLimit → 8 * r.data.length < positionLimit →
      Machine.readAt r offset count = liftM (r.readAt offset count) ∧
      ∀ signed, Machine.readWordAt r offset count signed =
        liftM (r.readWordAt offset count signed)) := by
  refine ⟨⟨?_, readAt_of_not_inBytes⟩, fun hin => ⟨readAt_of_inBytes hin, ?_, ?_⟩, ?_, ?_, ?_⟩
  · rintro ⟨fault, hfault⟩ hin
    rw [readAt_of_inBytes hin] at hfault
    cases hfault
  · exact ⟨_, (standsFor_iff hin.positive _ _).mpr rfl,
      fun n hn => (standsFor_iff hin.positive _ n).mp hn⟩
  · intro n hn
    rw [(standsFor_iff hin.positive _ n).mp hn]
    exact readWordAt_of_inBytes hin
  · intro low high value hlow hhigh hsmall
    simp only [readAt_eq_ok_iff]
    constructor
    · rintro ⟨hin, rfl⟩
      have hinside := hin.inside
      exact ⟨_, _, ⟨⟨hlow, by omega, by omega⟩, rfl⟩, ⟨⟨hhigh, by omega, by omega⟩, rfl⟩,
        spelled_add ..⟩
    · rintro ⟨_, _, ⟨-, rfl⟩, ⟨hsecond, rfl⟩, rfl⟩
      have hinside := hsecond.inside
      exact ⟨⟨by omega, hsmall, by omega⟩, (spelled_add ..).symm⟩
  · intro before f behind hpacked hpositive hsmall
    exact hpacked.storedAt.readAt hpositive hsmall
  · intro hposition hdata
    exact ⟨Machine.readAt_eq count (fun _ => hposition) hdata,
      fun signed => Machine.readWordAt_eq count signed (fun _ => hposition) hdata⟩

/-- Twelve bits, five for 19 and seven for 100, with set bits before and behind them. -/
def twoGroups : BitReader :=
  ofBytes [0x9F, 0xE4, 0xFF]

theorem reads_spelled_twoGroups :
    let fields : List BitField := [⟨5, 19⟩, ⟨7, 100⟩]
    InBytes twoGroups.data 3 5 ∧ StandsFor 5 19 (-13) ∧
      BitField.PackedAt twoGroups.data 3 fields ∧ ¬ InBytes twoGroups.data 3 22 ∧
      twoGroups.readAt 3 5 = .ok 19 ∧ twoGroups.readWordAt 3 5 true = .ok (BitVec.ofInt 64 (-13)) ∧
      twoGroups.readAt 3 (5 + 7) = .ok (19 + 2 ^ 5 * 100) ∧ twoGroups.readAt (3 + 5) 7 = .ok 100 ∧
      (∃ fault, twoGroups.readAt 3 22 = .error (.invalid fault)) ∧
      Machine.readAt twoGroups 3 5 = liftM (twoGroups.readAt 3 5) := by
  intro fields
  have hin : InBytes twoGroups.data 3 5 := ⟨by decide, by decide, by decide⟩
  have hspelled : spelled twoGroups.data 3 5 = 19 := by decide +kernel
  have hstands : StandsFor 5 19 (-13) := ⟨by decide, by decide⟩
  have hpacked : BitField.PackedAt twoGroups.data 3 fields := ⟨by decide, by decide +kernel⟩
  have hlong : ¬ InBytes twoGroups.data 3 22 := fun h => absurd h.inside (by decide)
  obtain ⟨-, hread, hsplit, hgroups, hmachine⟩ := reads_spelled twoGroups 3 5
  obtain ⟨hnumber, -, hword⟩ := hread hin
  rw [hspelled] at hnumber hword
  have hsecond : twoGroups.readAt (3 + 5) 7 = .ok 100 :=
    hgroups [⟨5, 19⟩] ⟨7, 100⟩ [] hpacked (by decide) (by decide)
  exact ⟨hin, hstands, hpacked, hlong, hnumber, hword (-13) hstands,
    (hsplit 5 7 _ (by decide) (by decide) (by decide)).mpr ⟨19, 100, hnumber, hsecond, rfl⟩,
    hsecond, (reads_spelled twoGroups 3 22).1.mpr hlong, (hmachine (by decide) (by decide)).1⟩

end BitReader

end ClientTable
