import ClientTable.Machine.Rows
import ClientTable.Proofs.BitFields
import ClientTable.Proofs.Mirrors

namespace ClientTable

theorem littleEndian_div_mod {data : Bytes} {i : Nat} {byte : UInt8} (h : data[i]? = some byte) :
    littleEndian data / 2 ^ (8 * i) % 2 ^ 8 = byte.toNat := by
  obtain ⟨hlt, rfl⟩ := List.getElem?_eq_some_iff.mp h
  have hbase : (256 : Nat) ^ i = 2 ^ (8 * i) := by
    rw [Nat.pow_mul]
  have hbyte : data[i].toNat < 256 := data[i].toNat_lt
  rw [← hbase, ← littleEndian_drop, List.drop_eq_getElem_cons hlt, littleEndian]
  omega

namespace Machine

theorem taken_eq {data : Bytes} {position count : Nat} {byte : UInt8}
    (h : data[position / 8]? = some byte) (hcount : count ≤ 8 - position % 8) :
    (byte.toNat >>> (position % 8)) &&& (2 ^ count - 1) =
      littleEndian data / 2 ^ position % 2 ^ count := by
  have hsplit : (2 : Nat) ^ 8 = 2 ^ (position % 8) * 2 ^ (8 - position % 8) := by
    rw [← Nat.pow_add]
    congr 1
    omega
  have hposition : (2 : Nat) ^ (8 * (position / 8)) * 2 ^ (position % 8) = 2 ^ position := by
    rw [← Nat.pow_add]
    congr 1
    omega
  rw [Nat.and_two_pow_sub_one_eq_mod, Nat.shiftRight_eq_div_pow, ← littleEndian_div_mod h, hsplit,
    Nat.mod_mul_right_div_self, Nat.mod_mod_of_dvd _ (Nat.pow_dvd_pow 2 hcount),
    Nat.div_div_eq_div_mul, hposition]

theorem or_shiftLeft {value taken written count : Nat} (hvalue : value < 2 ^ written)
    (htaken : taken < 2 ^ count) :
    value ||| taken <<< written = value + 2 ^ written * taken ∧
      value + 2 ^ written * taken < 2 ^ (written + count) := by
  constructor
  · rw [Nat.or_comm, ← Nat.shiftLeft_add_eq_or_of_lt hvalue, Nat.shiftLeft_eq, Nat.mul_comm,
      Nat.add_comm]
  · have hmul : 2 ^ written * (taken + 1) ≤ 2 ^ written * 2 ^ count :=
      Nat.mul_le_mul_left _ htaken
    rw [Nat.pow_add]
    rw [Nat.mul_add] at hmul
    omega

/-- What is gathered comes on top of the bits that stand already. -/
theorem gather_eq {data : Bytes} {count written position value : Nat} (hcount : count ≤ 64)
    (hwritten : written ≤ count) (hvalue : value < 2 ^ written)
    (hinside : position + (count - written) ≤ 8 * data.length)
    (hdata : 8 * data.length < positionLimit) :
    gather data count written position value =
      pure (value + 2 ^ written *
        (littleEndian data / 2 ^ position % 2 ^ (count - written))) := by
  -- Each byte leaves fewer bits missing, and what is gathered fits in the bits that are written.
  induction hn : count - written using Nat.strong_induction_on
    generalizing written position value with
  | _ n ih =>
    subst hn
    rcases Nat.lt_or_ge written count with hlt | hge
    · obtain ⟨byte, hbyte⟩ : ∃ byte, data[position / 8]? = some byte :=
        ⟨_, List.getElem?_eq_getElem (by omega)⟩
      have hposition : position % 8 < 8 := Nat.mod_lt _ (by decide)
      generalize hk : min (8 - position % 8) (count - written) = k
      have htaken := @taken_eq _ _ k _ hbyte (by omega)
      have htakenlt : littleEndian data / 2 ^ position % 2 ^ k < 2 ^ k :=
        Nat.mod_lt _ (Nat.two_pow_pos k)
      obtain ⟨hor, hsum⟩ := or_shiftLeft hvalue htakenlt
      have hroom : 2 ^ (written + k) ≤ 2 ^ 64 := Nat.pow_le_pow_right (by decide) (by omega)
      have hlimit : positionLimit = 2 ^ 64 := rfl
      have hword : (64 : Nat) < wordLimit := by decide
      have hsplit : count - written = k + (count - (written + k)) := by omega
      rw [gather, if_pos hlt, Checked.trap_bind (Checked.item_of_getElem? hbyte),
        Checked.trap_bind (Checked.sub_of_le (by omega)),
        Checked.trap_bind (Checked.sub_of_le (by omega)), hk, Nat.one_shiftLeft,
        Checked.trap_bind (Checked.sub_of_le Nat.one_le_two_pow), htaken,
        Checked.trap_bind (Checked.fit_of_lt (by rw [Nat.shiftLeft_eq, Nat.mul_comm]; omega)),
        Checked.trap_bind (Checked.add_of_lt (by omega)),
        Checked.trap_bind (Checked.add_of_lt (by omega)), hor,
        ih _ (by omega) (by omega) hsum (by omega) rfl, hsplit, Nat.pow_add 2 k, Nat.mod_mul,
        Nat.div_div_eq_div_mul, ← Nat.pow_add, Nat.pow_add 2 written]
      congr 1
      ring
    · have hnone : count - written = 0 := by omega
      rw [gather, if_neg (by omega), hnone, Nat.pow_zero, Nat.mod_one, Nat.mul_zero, Nat.add_zero]

/-- Reading bits whose positions are 64-bit numbers. -/
theorem readAt_eq {r : BitReader} {offset : Nat} (count : Nat)
    (hoffset : count ≤ 64 → offset + count < positionLimit)
    (hdata : 8 * r.data.length < positionLimit) :
    readAt r offset count = liftM (r.readAt offset count) := by
  unfold readAt BitReader.readAt
  split
  case isTrue => rfl
  case isFalse hcount =>
      have hsmall : count ≤ 64 := by omega
      have hsize : Checked.mul positionLimit r.data.length 8 = pure r.size := by
        rw [Checked.mul_of_lt (by omega), BitReader.size, Nat.mul_comm]
      rw [Checked.trap_bind (Checked.add_of_lt (hoffset hsmall)), Checked.trap_bind hsize]
      split
      case isTrue => rfl
      case isFalse hinside =>
          rw [BitReader.size] at hinside
          rw [gather_eq hsmall (Nat.zero_le _) (by decide) (by omega) hdata,
            BitReader.bitsAt_eq _ _ hsmall, Nat.sub_zero, Nat.zero_add, Nat.pow_zero,
            Nat.one_mul]
          rfl

theorem sshiftRight_shiftLeft (word : BitVec 64) {count : Nat} (hpositive : 0 < count)
    (hsmall : count < 64) :
    (word <<< (64 - count)).sshiftRight (64 - count) = (word.setWidth count).signExtend 64 := by
  apply BitVec.eq_of_getLsbD_eq
  intro i hi
  rw [BitVec.getLsbD_sshiftRight, BitVec.getLsbD_signExtend, BitVec.getLsbD_shiftLeft,
    BitVec.msb_eq_getLsbD_last, BitVec.msb_eq_getLsbD_last, BitVec.getLsbD_shiftLeft,
    BitVec.getLsbD_setWidth, BitVec.getLsbD_setWidth]
  have hword : ¬ 64 ≤ i := by omega
  rcases Nat.lt_or_ge i count with hlt | hge
  · have hback : 64 - count + i - (64 - count) = i := by omega
    have hinside : 64 - count + i < 64 := by omega
    have hshifted : ¬ 64 - count + i < 64 - count := by omega
    simp [hback, hinside, hshifted, hword, hlt, hi]
  · have hback : 64 - 1 - (64 - count) = count - 1 := by omega
    have hinside : ¬ 64 - count + i < 64 := by omega
    have hshifted : ¬ 64 - 1 < 64 - count := by omega
    rw [if_neg hinside, if_neg (by omega), hback]
    simp [hshifted, hword, hpositive, hi]

theorem signExtend_eq (word : BitVec 64) (count : Nat) :
    signExtend word count = pure (ClientTable.signExtend word count) := by
  unfold signExtend ClientTable.signExtend
  split
  case isTrue => rfl
  case isFalse h =>
      rw [Checked.trap_bind (Checked.sub_of_le (by omega))]
      exact congrArg pure (sshiftRight_shiftLeft word (by omega) (by omega))

theorem readWordAt_of_readAt {r : BitReader} {offset count : Nat}
    (h : readAt r offset count = liftM (r.readAt offset count)) (signed : Bool) :
    readWordAt r offset count signed = liftM (r.readWordAt offset count signed) := by
  refine Checked.bind_eq_lift h fun value _ => ?_
  cases signed with
  | false => rfl
  | true => exact signExtend_eq _ count

theorem readWordAt_eq {r : BitReader} {offset : Nat} (count : Nat) (signed : Bool)
    (hoffset : count ≤ 64 → offset + count < positionLimit)
    (hdata : 8 * r.data.length < positionLimit) :
    readWordAt r offset count signed = liftM (r.readWordAt offset count signed) :=
  readWordAt_of_readAt (readAt_eq count hoffset hdata) signed

end Machine

end ClientTable
