import ClientTable.Proofs.PalletChunks

namespace ClientTable

open Attempt

namespace PalletTable

/-- The sum of two 64-bit words, if it is one. -/
def sum? (a b : UInt64) : Option UInt64 :=
  if a.toNat + b.toNat < positionLimit then some (a + b) else none

/-- The product of two 64-bit words, if it is one. -/
def product? (a b : UInt64) : Option UInt64 :=
  if a.toNat * b.toNat < positionLimit then some (a * b) else none

/-- Which word of a chunk an element of an array is, in 64-bit words. -/
def slot? (stored : UInt64) (arity element : UInt32) : Option UInt64 :=
  (product? stored arity.toUInt64).bind fun first => sum? first element.toUInt64

/-- Where a word of a chunk ends, in 64-bit words, if it ends in the block. -/
def stop? (t : PalletTable) (chunk : UInt32) (slot : UInt64) : Option UInt64 :=
  ((product? slot 4).bind fun distance => sum? distance (chunk.toUInt64 + 4)).filter
    fun stop => stop.toNat ≤ t.size

theorem fits_eq_some_iff {n : Nat} {v w : UInt64} (hv : v.toNat = n % positionLimit) :
    (if n < positionLimit then some v else none) = some w ↔ w.toNat = n := by
  have hw : w.toNat < positionLimit := w.toNat_lt
  split
  case isTrue hlt => rw [Option.some_inj, ← UInt64.toNat_inj, hv, Nat.mod_eq_of_lt hlt, eq_comm]
  case isFalse hlarge => exact iff_of_false nofun fun h => hlarge (h ▸ hw)

theorem sum?_eq_some_iff {a b w : UInt64} : sum? a b = some w ↔ w.toNat = a.toNat + b.toNat :=
  fits_eq_some_iff (UInt64.toNat_add a b)

theorem product?_eq_some_iff {a b w : UInt64} :
    product? a b = some w ↔ w.toNat = a.toNat * b.toNat :=
  fits_eq_some_iff (UInt64.toNat_mul a b)

theorem bind_sum?_eq_some_iff {a b c w : UInt64} :
    ((product? a b).bind fun first => sum? first c) = some w ↔
      w.toNat = a.toNat * b.toNat + c.toNat := by
  have hw : w.toNat < positionLimit := w.toNat_lt
  constructor
  · intro h
    obtain ⟨first, hfirst, h⟩ := Option.bind_eq_some_iff.mp h
    rw [sum?_eq_some_iff.mp h, product?_eq_some_iff.mp hfirst]
  · intro h
    have hfirst : (UInt64.ofNat (a.toNat * b.toNat)).toNat = a.toNat * b.toNat :=
      UInt64.toNat_ofNat_of_lt' (by change _ < positionLimit; omega)
    refine Option.bind_eq_some_iff.mpr ⟨_, product?_eq_some_iff.mpr hfirst, ?_⟩
    rw [sum?_eq_some_iff, hfirst, h]

theorem slot?_eq_some_iff {stored w : UInt64} {arity element : UInt32} :
    slot? stored arity element = some w ↔
      w.toNat = stored.toNat * arity.toNat + element.toNat := by
  unfold slot?
  rw [bind_sum?_eq_some_iff, UInt32.toNat_toUInt64, UInt32.toNat_toUInt64]

theorem stop?_eq_some_iff {t : PalletTable} {chunk : UInt32} {slot w : UInt64} :
    t.stop? chunk slot = some w ↔
      w.toNat = position chunk.toNat slot.toNat + 4 ∧ w.toNat ≤ t.size := by
  have hfirst : (chunk.toUInt64 + 4).toNat = chunk.toNat + 4 := by
    have hchunk := chunk.toNat_lt
    rw [UInt64.toNat_add, UInt32.toNat_toUInt64]
    exact Nat.mod_eq_of_lt (by change chunk.toNat + 4 < 2 ^ 64; omega)
  have hfour : (4 : UInt64).toNat = 4 := rfl
  unfold stop?
  rw [Option.filter_eq_some_iff, bind_sum?_eq_some_iff, hfirst, hfour, position, decide_eq_true_iff]
  refine and_congr_left fun _ => ?_
  omega

/-- Whether a word is in the block, and where, comes out the same in 64-bit words. -/
theorem word_eq_match_stop? {t : PalletTable} (hsize : t.size < positionLimit) (chunk : UInt32)
    (slot : UInt64) :
    t.word chunk.toNat slot.toNat =
      match t.stop? chunk slot with
      | some stop => .ok (t.wordAt (stop.toNat - 4))
      | none => .error (.invalid (.palletOutside slot.toNat chunk.toNat t.size)) := by
  unfold word
  cases hstop : t.stop? chunk slot with
  | some stop =>
    obtain ⟨hposition, hinside⟩ := stop?_eq_some_iff.mp hstop
    rw [hposition] at hinside
    dsimp only
    rw [if_neg (Nat.not_lt.mpr hinside), hposition, Nat.add_sub_cancel]
    rfl
  | none =>
    refine if_pos (Nat.lt_of_not_le fun hinside => ?_)
    have hfits : (UInt64.ofNat (position chunk.toNat slot.toNat + 4)).toNat =
        position chunk.toNat slot.toNat + 4 :=
      UInt64.toNat_ofNat_of_lt' (Nat.lt_of_le_of_lt hinside hsize)
    have hsome := stop?_eq_some_iff.mpr ⟨hfits, hfits ▸ hinside⟩
    rw [hstop] at hsome
    cases hsome

end PalletTable

/-- What is read for an element is what the four bytes at a position of the block stand for, and a
fault of the file if they are not all there. -/
structure RowContext.FindsWord (c : RowContext) (pallet : PalletTable) (position : Nat)
    (kind : FieldKind) (s : RowState) (read : Except Error Scalar) : Prop where
  inside : position + 4 ≤ pallet.size → read = ((wordScalar (pallet.wordAt position) kind).on s).1
  outside : pallet.size < position + 4 → ∃ fault, read = .error (.invalid fault)

namespace RowContext

variable {c : RowContext} {index : Nat} {d : Descriptor} {e : Nat} {kind : FieldKind}
  {chunk : Chunk} {pallet : PalletTable} {s t : RowState} {stored : Nat}

/-- What a word stands for depends on the texts of the section and on nothing in the row. -/
theorem on_wordScalar_congr (word : UInt32) (kind : FieldKind) (h : s.strings = t.strings) :
    ((wordScalar word kind).on s).1 = ((wordScalar word kind).on t).1 := by
  have htexts (offset : UInt32) :
      Respects (fun s t => s.strings = t.strings) (Decode.string offset) := by
    refine Respects.bind (fun s t hst => ?_) fun _ => respects_pure _
    rw [on_focus, on_focus, hst]
    exact ⟨rfl, rfl⟩
  exact (respects_wordScalar htexts word kind s t h).1

theorem leaves_inlineWord {τ : Type} {part : RowState → τ}
    (hpart : ∀ s bits, part { s with bits } = part s) (c : RowContext) (d : Descriptor) (e : Nat)
    (signed : Bool) : Leaves part (c.inlineWord d e signed) := by
  unfold inlineWord
  split
  · exact fun s => hpart s _
  · exact leaves_get.bind fun _ => leaves_lift _

theorem leaves_storedIndex_strings : Leaves RowState.strings (c.storedIndex index d e) := by
  have hread : Leaves RowState.strings (palletArrayIndex.readIndex c index d) :=
    (leaves_inlineWord (fun _ _ => rfl) c d 0 false).bind fun _ =>
      Leaves.bind (fun _ => rfl) fun _ => leaves_pure _
  unfold storedIndex
  split
  · refine leaves_get.bind fun s => ?_
    split
    · split
      · exact leaves_pure _
      · exact hread
    · exact hread
  · exact (leaves_inlineWord (fun _ _ => rfl) c d e false).bind fun _ => leaves_pure _

theorem lookUp_of_lt (h : d.palletSlot stored e < positionLimit) :
    c.lookUp d e kind chunk stored = c.elementAt kind chunk (d.palletSlot stored e) := by
  unfold lookUp
  split
  · exact if_neg (Nat.not_le.mpr h)
  · rfl

/-- Whether an index of an array can be looked up, and in which word, comes out the same in 64-bit
words. -/
theorem lookUp_eq_match_slot? {own : Chunk} (hstorage : d.storage = .palletArray own)
    {arity : UInt32} (harity : d.cardinality = arity.toNat) (stored : UInt64) (element : UInt32) :
    c.lookUp d element.toNat kind chunk stored.toNat =
      match PalletTable.slot? stored arity element with
      | some slot => c.elementAt kind chunk slot.toNat
      | none => throw (.invalid (.palletIndexOverflow stored.toNat)) := by
  have hposition : d.palletSlot stored.toNat element.toNat =
      stored.toNat * arity.toNat + element.toNat := by
    rw [Descriptor.palletSlot, hstorage, harity]
  cases hslot : PalletTable.slot? stored arity element with
  | some slot =>
    have hexact := PalletTable.slot?_eq_some_iff.mp hslot
    rw [lookUp_of_lt, hposition, ← hexact]
    rw [hposition, ← hexact]
    exact slot.toNat_lt
  | none =>
    unfold lookUp
    rw [hstorage]
    refine if_pos (Nat.le_of_not_lt fun hlt => ?_)
    rw [hposition] at hlt
    have hsome := PalletTable.slot?_eq_some_iff.mpr (UInt64.toNat_ofNat_of_lt' hlt)
    rw [hslot] at hsome
    cases hsome

/-- An index leads to its own position of the block and to no other. -/
theorem findsWord_element (hd : c.descriptors[index]? = some d)
    (hchunk : d.palletChunk? = some chunk) (hpallet : c.pallet = some pallet)
    (hsize : pallet.size < positionLimit) (kind : FieldKind)
    (hstored : ((c.storedIndex index d e).on s).1 = .ok stored) :
    c.FindsWord pallet (PalletTable.position chunk.start (d.palletSlot stored e)) kind s
      ((c.element index e kind).on s).1 := by
  obtain ⟨t, hread⟩ : ∃ t, (c.storedIndex index d e).on s = (.ok stored, t) :=
    ⟨_, Prod.ext hstored rfl⟩
  have hstrings : t.strings = s.strings := by
    have hleaves : ((c.storedIndex index d e).on s).2.strings = s.strings :=
      leaves_storedIndex_strings s
    rwa [hread] at hleaves
  rw [element_eq_bind hd hchunk e kind s, on_bind_of_ok hread]
  have hblock : c.FindsWord pallet (PalletTable.position chunk.start (d.palletSlot stored e)) kind s
      ((c.elementAt kind chunk (d.palletSlot stored e)).on t).1 := by
    rw [on_elementAt_of_some hpallet]
    constructor
    · intro hinside
      rw [if_neg (Nat.not_lt.mpr hinside)]
      exact on_wordScalar_congr _ kind hstrings
    · intro houtside
      rw [if_pos houtside]
      exact ⟨_, rfl⟩
  by_cases hslot : d.palletSlot stored e < positionLimit
  case pos =>
    rw [lookUp_of_lt hslot]
    exact hblock
  case neg =>
    -- No block is so large that such a slot is in it.
    have houtside : pallet.size < PalletTable.position chunk.start (d.palletSlot stored e) + 4 := by
      rw [PalletTable.position]
      omega
    refine ⟨fun hinside => absurd houtside (Nat.not_lt.mpr hinside), fun _ => ?_⟩
    have hor : (∃ fault, c.lookUp d e kind chunk stored = throw (.invalid fault)) ∨ _ :=
      c.lookUp_eq_or
    rcases hor with ⟨fault, hlookUp⟩ | hlookUp
    · rw [hlookUp]
      exact ⟨fault, rfl⟩
    · rw [hlookUp]
      exact hblock.outside houtside

end RowContext

end ClientTable
