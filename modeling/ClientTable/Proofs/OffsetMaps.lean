import ClientTable.Proofs.VacantMap

namespace ClientTable

open Attempt

/-- Entries of one size, each of which can be read from any bytes that are as many. -/
theorem Parse.on_many_entries {α : Type} {item : Parse α} {size : Nat} {first : Bytes → α}
    (hitem : ∀ bytes position, size ≤ bytes.length →
      ∃ next, item.on ⟨bytes, position⟩ = (.ok (first bytes), ⟨bytes.drop size, next⟩))
    {count : Nat} {bytes : Bytes} (h : size * count ≤ bytes.length) (position : Nat) :
    ((many item count).on ⟨bytes, position⟩).1 =
      .ok ((List.range count).map fun i => first (bytes.drop (size * i))) := by
  induction count generalizing bytes position with
  | zero => rfl
  | succ count ih =>
    rw [Nat.mul_succ] at h
    have hrest : size * count ≤ (bytes.drop size).length := by
      rw [List.length_drop]
      omega
    obtain ⟨next, hnext⟩ := hitem bytes position (by omega)
    rw [on_many_succ hnext, ih hrest, List.range_succ_eq_map, List.map_cons, List.map_map]
    have hshift : ∀ i, (bytes.drop size).drop (size * i) = bytes.drop (size * (i + 1)) := by
      intro i
      rw [List.drop_drop, Nat.mul_succ, Nat.add_comm]
    simp only [hshift]
    rfl

theorem Source.on_readSegment_of_block {source : Source} {segment : Segment} {block : Bytes}
    (h : source.block segment.start segment.length = .ok block) (handed : Nat) :
    (source.readSegment segment).on handed =
      (.ok block, handed + source.cost (source.found segment.start segment.length).length) := by
  rw [readSegment, on_readBlock, h]

namespace RowLocation

/-- The slot that the first six bytes spell. -/
def first (bytes : Bytes) : RowLocation :=
  ⟨UInt32.ofNat (littleEndian (bytes.take 4)), UInt16.ofNat (littleEndian ((bytes.drop 4).take 2))⟩

/-- The whole slots of a block. -/
def slots (block : Bytes) : List RowLocation :=
  (List.range (block.length / 6)).map fun i => first (block.drop (6 * i))

/-- The slots of a block that locate a record. -/
def entries (block : Bytes) : List RowLocation :=
  (slots block).filter fun l => l.offset ≠ 0 ∧ l.length ≠ 0

/-- Whether the record starts before the record area or ends after it. -/
def Strays (records : Segment) (l : RowLocation) : Prop :=
  l.offset.toNat < records.start ∨
    records.start + records.length < l.offset.toNat + l.length.toNat

/-- Blocks of whole slots, of which the second is the first with unused slots put in. -/
inductive Padded : Bytes → Bytes → Prop
  | nil : Padded [] []
  | slot {block padded : Bytes} (slot : Bytes) (hsize : slot.length = 6) :
    Padded block padded → Padded (slot ++ block) (slot ++ padded)
  | unused {block padded : Bytes} (slot : Bytes) (hsize : slot.length = 6)
    (hzero : slot.take 4 = [0, 0, 0, 0] ∨ slot.drop 4 = [0, 0]) :
    Padded block padded → Padded block (slot ++ padded)

theorem on_parse_first {bytes : Bytes} (h : 6 ≤ bytes.length) (position : Nat) :
    parse.on ⟨bytes, position⟩ = (.ok (first bytes), ⟨bytes.drop 6, position + 4 + 2⟩) := by
  have hoffset : 4 ≤ (Input.mk bytes position).rest.length := by
    change 4 ≤ bytes.length
    omega
  have hlength : 2 ≤ (Input.mk (bytes.drop 4) (position + 4)).rest.length := by
    simp only [List.length_drop]
    omega
  unfold parse
  rw [on_bind_of_ok (Parse.on_u32_of_le hoffset),
    on_bind_of_ok (Parse.on_u16_of_le hlength)]
  simp only [on_pure, List.drop_drop, first]

theorem decode_slots (block : Bytes) :
    Parse.decode (Parse.many parse (block.length / 6)) block = .ok (slots block) :=
  Parse.on_many_entries (fun _ position h => ⟨_, on_parse_first h position⟩) (Nat.mul_div_le ..) 0

theorem slots_append {slot : Bytes} (h : slot.length = 6) (block : Bytes) :
    slots (slot ++ block) = first slot :: slots block := by
  have hcount : (slot ++ block).length / 6 = block.length / 6 + 1 := by
    rw [List.length_append, h]
    omega
  have hfirst : first (slot ++ block) = first slot := by
    have hrest : ((slot ++ block).drop 4).take 2 = (slot.drop 4).take 2 := by
      rw [List.drop_append_of_le_length (by omega), List.take_append_of_le_length]
      rw [List.length_drop, h]
    rw [first, first, hrest, List.take_append_of_le_length (by omega)]
  have hothers : ∀ i, (slot ++ block).drop (6 * (i + 1)) = block.drop (6 * i) := by
    intro i
    rw [Nat.mul_succ, Nat.add_comm, ← List.drop_drop, List.drop_left' h]
  rw [slots, hcount, List.range_succ_eq_map, List.map_cons, List.map_map, Nat.mul_zero,
    List.drop_zero, hfirst]
  exact congrArg _ (List.map_congr_left fun i _ => congrArg first (hothers i))

theorem entries_append {slot : Bytes} (h : slot.length = 6) (block : Bytes) :
    entries (slot ++ block) = entries slot ++ entries block := by
  have hslot : slots slot = [first slot] := by
    simpa [slots] using slots_append h []
  rw [entries, entries, entries, hslot, slots_append h, ← List.filter_append]
  rfl

theorem entries_of_unused {slot : Bytes} (hsize : slot.length = 6)
    (hzero : slot.take 4 = [0, 0, 0, 0] ∨ slot.drop 4 = [0, 0]) : entries slot = [] := by
  have hslot : slots slot = [first slot] := by
    simpa [slots] using slots_append hsize []
  rw [entries, hslot]
  rcases hzero with hzero | hzero <;> simp [first, hzero, littleEndian]

theorem Padded.entries_eq {block padded : Bytes} (h : Padded block padded) :
    6 ∣ block.length ∧ 6 ∣ padded.length ∧ entries padded = entries block := by
  induction h with
  | nil => exact ⟨by decide, by decide, rfl⟩
  | slot slot hsize _ ih =>
    obtain ⟨hblock, hpadded, hsame⟩ := ih
    rw [entries_append hsize, entries_append hsize, hsame, List.length_append, List.length_append,
      hsize]
    exact ⟨by omega, by omega, rfl⟩
  | unused slot hsize hzero _ ih =>
    obtain ⟨hblock, hpadded, hsame⟩ := ih
    rw [entries_append hsize, entries_of_unused hsize hzero, hsame, List.length_append, hsize]
    exact ⟨hblock, by omega, rfl⟩

theorem filter_isUsed (block : Bytes) : (slots block).filter isUsed = entries block := by
  refine List.filter_congr fun l _ => ?_
  simp [isUsed]

theorem isInside_eq_false {records : Segment} {l : RowLocation} :
    l.isInside records = false ↔ l.Strays records := by
  have hinside : l.isInside records = true ↔
      records.start ≤ l.offset.toNat ∧ l.stop ≤ records.stop := by
    simp [isInside]
  rw [← Bool.not_eq_true, hinside, stop, Segment.stop, Strays]
  omega

section Selection

variable {records : Segment} {recordCount : UInt32} {block : Bytes}

theorem select_of_strays (h : ∃ l ∈ entries block, l.Strays records) :
    ∃ l ∈ entries block, l.Strays records ∧
      select records recordCount (slots block) = .error (l.outside records) := by
  obtain ⟨l, hl, hstray⟩ := h
  obtain ⟨found, hfound⟩ : ∃ found, (entries block).find? (fun l => !l.isInside records) =
      some found := by
    refine Option.isSome_iff_exists.mp (List.find?_isSome.mpr ⟨l, hl, ?_⟩)
    rw [isInside_eq_false.mpr hstray]
    rfl
  refine ⟨found, List.mem_of_find?_eq_some hfound, ?_, ?_⟩
  · apply isInside_eq_false.mp
    simpa using List.find?_some hfound
  · unfold select
    rw [filter_isUsed]
    simp only [hfound]
    rfl

theorem select_of_inside (h : ∀ l ∈ entries block, ¬ l.Strays records) :
    select records recordCount (slots block) =
      if (entries block).length = recordCount.toNat then .ok (entries block)
      else .error (.countMismatch .offsetMapEntries recordCount.toNat (entries block).length) := by
  have hfound : (entries block).find? (fun l => !l.isInside records) = none := by
    refine List.find?_eq_none.mpr fun l hl => ?_
    have hinside : l.isInside records ≠ false := fun hfalse => h l hl (isInside_eq_false.mp hfalse)
    simpa using hinside
  unfold select
  rw [filter_isUsed]
  simp only [hfound]
  rfl

end Selection

section Acceptance

variable {source : Source} {segment : Segment} {block : Bytes}

theorem on_readAll_of_block (hblock : source.block segment.start segment.length = .ok block)
    (records : Segment) (recordCount : UInt32) (handed : Nat) :
    ((readAll source segment records recordCount).on handed).1 =
      if 6 ∣ block.length then select records recordCount (slots block)
      else .error (.sizeMismatch .offsetMap (block.length - block.length % 6) block.length) := by
  have hlength := (Source.block_eq_ok_iff.mp hblock).1
  unfold readAll
  by_cases hwhole : 6 ∣ block.length
  · have hcount : Block.offsetMap.entryCount segment.length entrySize = .ok (block.length / 6) := by
      rw [← hlength]
      exact if_neg (by unfold entrySize; omega)
    rw [if_pos hwhole, hcount, on_bind_of_ok (on_lift _ _),
      on_bind_of_ok (Source.on_readSegment_of_block hblock handed), decode_slots,
      on_bind_of_ok (on_lift _ _), on_lift]
  · have hcount : Block.offsetMap.entryCount segment.length entrySize =
        .error (.sizeMismatch .offsetMap (block.length - block.length % 6) block.length) := by
      rw [← hlength]
      exact if_pos (by unfold entrySize; omega)
    rw [if_neg hwhole, hcount, on_bind_of_error (on_lift _ _)]

/-- What comes of an offset map with the slots of `block`. -/
structure IsVerdict (block : Bytes) (records : Segment) (recordCount : UInt32)
    (outcome : Except Error (List RowLocation)) : Prop where
  sizeMismatch :
    (∃ kind expected found, outcome = .error (.sizeMismatch kind expected found)) ↔
      ¬ 6 ∣ block.length
  invalid : 6 ∣ block.length →
    ((∃ fault, outcome = .error (.invalid fault)) ↔ ∃ l ∈ entries block, l.Strays records)
  countMismatch : 6 ∣ block.length → (∀ l ∈ entries block, ¬ l.Strays records) →
    (outcome = .error
        (.countMismatch .offsetMapEntries recordCount.toNat (entries block).length) ↔
      (entries block).length ≠ recordCount.toNat)
  accepted : 6 ∣ block.length → (∀ l ∈ entries block, ¬ l.Strays records) →
    (entries block).length = recordCount.toNat → outcome = .ok (entries block)

theorem isVerdict_select (hwhole : 6 ∣ block.length) (records : Segment) (recordCount : UInt32) :
    IsVerdict block records recordCount (select records recordCount (slots block)) := by
  by_cases hstray : ∃ l ∈ entries block, l.Strays records
  · obtain ⟨l, _, _, hselect⟩ := select_of_strays hstray
    obtain ⟨stray, hmem, hstrays⟩ := hstray
    rw [hselect]
    refine ⟨?_, ?_, ?_, ?_⟩
    · simp [outside, hwhole]
    · exact fun _ => ⟨fun _ => ⟨stray, hmem, hstrays⟩, fun _ => ⟨_, rfl⟩⟩
    · exact fun _ hinside => absurd hstrays (hinside stray hmem)
    · exact fun _ hinside => absurd hstrays (hinside stray hmem)
  · have hinside : ∀ l ∈ entries block, ¬ l.Strays records :=
      fun l hl hstrays => hstray ⟨l, hl, hstrays⟩
    rw [select_of_inside hinside]
    by_cases hcount : (entries block).length = recordCount.toNat
    · rw [if_pos hcount]
      refine ⟨?_, ?_, ?_, ?_⟩
      · simp [hwhole]
      · simp [hstray]
      · simp [hcount]
      · exact fun _ _ _ => rfl
    · rw [if_neg hcount]
      refine ⟨?_, ?_, ?_, ?_⟩
      · simp [hwhole]
      · simp [hstray]
      · simp [hcount]
      · exact fun _ _ hsame => absurd hsame hcount

/-- An offset map is accepted if it consists of whole slots and those that locate a record lie in
the record area and are as many as there are records. It says which of this fails first, and
unused slots make no difference to it. -/
theorem isVerdict_readAll (hblock : source.block segment.start segment.length = .ok block)
    (records : Segment) (recordCount : UInt32) (handed : Nat) :
    IsVerdict block records recordCount
        ((readAll source segment records recordCount).on handed).1 ∧
      ∀ (padded : Bytes) (source' : Source) (segment' : Segment) (handed' : Nat),
        Padded block padded → source'.block segment'.start segment'.length = .ok padded →
        ((readAll source' segment' records recordCount).on handed').1 =
          ((readAll source segment records recordCount).on handed).1 := by
  rw [on_readAll_of_block hblock]
  constructor
  · by_cases hwhole : 6 ∣ block.length
    · rw [if_pos hwhole]
      exact isVerdict_select hwhole records recordCount
    · rw [if_neg hwhole]
      refine ⟨?_, ?_, ?_, ?_⟩
      · simp [hwhole]
      · exact fun h => absurd h hwhole
      · exact fun h => absurd h hwhole
      · exact fun h => absurd h hwhole
  · intro padded source' segment' handed' hpadded hblock'
    obtain ⟨hwhole, hwhole', hsame⟩ := hpadded.entries_eq
    rw [on_readAll_of_block hblock', if_pos hwhole, if_pos hwhole']
    unfold select
    rw [filter_isUsed, filter_isUsed, hsame]

end Acceptance

def twoSlots : Bytes :=
  [20, 0, 0, 0, 8, 0] ++ ([28, 0, 0, 0, 12, 0] ++ [])

/-- The same two records, and between them a slot with a length alone. -/
def twoSlotsApart : Bytes :=
  [20, 0, 0, 0, 8, 0] ++ ([0, 0, 0, 0, 9, 0] ++ ([28, 0, 0, 0, 12, 0] ++ []))

theorem readAll_twoSlots :
    ((readAll (.memory twoSlots) ⟨.offsetMap, 0, 12⟩ ⟨.records, 20, 20⟩ 2).on 0).1 =
        .ok [⟨20, 8⟩, ⟨28, 12⟩] ∧
      ((readAll (.memory twoSlotsApart) ⟨.offsetMap, 0, 18⟩ ⟨.records, 20, 20⟩ 2).on 0).1 =
        .ok [⟨20, 8⟩, ⟨28, 12⟩] := by
  let segment : Segment := ⟨.offsetMap, 0, 12⟩
  have hblock : (Source.memory twoSlots).block segment.start segment.length = .ok twoSlots := by
    decide
  obtain ⟨hverdict, hpadded⟩ := isVerdict_readAll hblock ⟨.records, 20, 20⟩ 2 0
  have haccepted := hverdict.accepted (by decide) (by unfold Strays; decide) (by decide)
  have hapart : Padded twoSlots twoSlotsApart :=
    .slot _ rfl (.unused _ rfl (.inl rfl) (.slot _ rfl .nil))
  refine ⟨haccepted, ?_⟩
  rw [hpadded _ (.memory twoSlotsApart) ⟨.offsetMap, 0, 18⟩ 0 hapart (by decide)]
  exact haccepted

end RowLocation

end ClientTable
