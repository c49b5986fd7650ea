import ClientTable.Proofs.BitFields
import ClientTable.Proofs.RowReads

namespace ClientTable

open Attempt
open RowState (Kin Ahead)

theorem SlotRun.element_lt_cardinality {descriptors : List Descriptor} {slot : Slot}
    (h : slot ∈ flatten (ofDescriptors descriptors)) :
    ∃ d, descriptors[slot.descriptor]? = some d ∧ slot.element < d.cardinality := by
  obtain ⟨r, hr, hslot⟩ := List.mem_flatMap.mp h
  obtain ⟨⟨d, index⟩, hd, rfl⟩ := List.mem_map.mp hr
  obtain ⟨element, helement, rfl⟩ := List.mem_map.mp hslot
  have hlt : element < 0 + d.cardinality := (List.mem_range'_1.mp helement).2
  rw [Nat.zero_add] at hlt
  exact ⟨d, List.mem_zipIdx_iff_getElem?.mp hd, hlt⟩

namespace Descriptor

theorem cardinality_pos_consecutive (offset : Nat) (fields : List Field) :
    ∀ d ∈ consecutive offset fields, 0 < d.cardinality := by
  induction fields generalizing offset with
  | nil => nofun
  | cons f fields ih => exact List.forall_mem_cons.mpr ⟨f.arity_pos, ih _⟩

theorem cardinality_pos_of_fieldInfos {h : Header} {index : Nat} {infos : List FieldInfo}
    {columns : List Descriptor} (hcolumns : FieldInfo.descriptors h index infos = .ok columns) :
    ∀ d ∈ columns, 0 < d.cardinality := by
  induction infos generalizing index columns with
  | nil =>
    cases hcolumns
    nofun
  | cons info infos ih =>
    obtain ⟨size, -, hcolumns⟩ := bind_eq_ok.mp hcolumns
    obtain ⟨count, -, hcolumns⟩ := bind_eq_ok.mp hcolumns
    obtain ⟨others, hothers, hcolumns⟩ := bind_eq_ok.mp hcolumns
    cases hcolumns
    refine List.forall_mem_cons.mpr ⟨?_, ih hothers⟩
    exact Nat.lt_of_lt_of_le Nat.one_pos (Nat.le_max_right ..)

theorem cardinality_pos_of_storageInfo {index : Nat} {field? : Option FieldInfo}
    {offsets left : ChunkOffsets} {info : StorageInfo} {d : Descriptor}
    (h : info.descriptor index field? offsets = .ok (d, left)) : 0 < d.cardinality := by
  obtain ⟨compression, -, h⟩ := bind_eq_ok.mp h
  cases compression with
  | plain =>
    obtain ⟨bits, -, h⟩ := bind_eq_ok.mp h
    cases h
    exact Nat.lt_of_lt_of_le Nat.one_pos (Nat.le_max_right ..)
  | immediate =>
    cases h
    exact Nat.one_pos
  | common | pallet =>
    obtain ⟨chunk, -, h⟩ := bind_eq_ok.mp h
    cases h
    exact Nat.one_pos
  | palletArray =>
    obtain ⟨chunk, -, h⟩ := bind_eq_ok.mp h
    cases h
    exact Nat.lt_of_lt_of_le Nat.one_pos (Nat.le_max_right ..)

theorem cardinality_pos_of_storageInfos {fields : List FieldInfo} {index : Nat}
    {offsets : ChunkOffsets} {infos : List StorageInfo} {columns : List Descriptor}
    (hcolumns : StorageInfo.descriptors fields index offsets infos = .ok columns) :
    ∀ d ∈ columns, 0 < d.cardinality := by
  induction infos generalizing index offsets columns with
  | nil =>
    cases hcolumns
    nofun
  | cons info infos ih =>
    obtain ⟨⟨first, left⟩, hfirst, hcolumns⟩ := bind_eq_ok.mp hcolumns
    obtain ⟨others, hothers, hcolumns⟩ := bind_eq_ok.mp hcolumns
    cases hcolumns
    exact List.forall_mem_cons.mpr ⟨cardinality_pos_of_storageInfo hfirst, ih hothers⟩

theorem ensures_readColumns_cardinality (source : Source) (h : Header) (layout : Layout)
    (schema : Schema) :
    Ensures (readColumns source h layout schema) fun columns =>
      ∀ d ∈ columns, 0 < d.cardinality := by
  unfold readColumns
  cases h.signature with
  | wdbc | wdb2 => exact ensures_pure (cardinality_pos_consecutive 0 schema.fields)
  | wdb3 | wdb4 => exact ensures_throw _
  | wdb5 =>
    exact ensures_bind fun infos => ensures_lift fun _ => cardinality_pos_of_fieldInfos
  | wdb6 =>
    refine ensures_bind fun infos => ?_
    refine Ensures.bind (ensures_lift fun _ => cardinality_pos_of_fieldInfos)
      fun columns hcolumns => ?_
    refine Ensures.bind (Q := fun others => commonColumns h = .ok others)
      (ensures_lift fun _ => id) fun others hothers => ensures_pure ?_
    obtain ⟨offset, -, hothers⟩ := bind_eq_ok.mp hothers
    cases hothers
    intro d hd
    rcases List.mem_append.mp hd with hd | hd
    · exact hcolumns d hd
    · rw [List.eq_of_mem_replicate hd]
      exact Nat.one_pos
  | wdc1 | wdc2 =>
    exact ensures_bind fun fields => ensures_bind fun infos =>
      ensures_lift fun _ => cardinality_pos_of_storageInfos

/-- No file has a field without elements. -/
theorem ensures_readAll_cardinality (source : Source) (h : Header) (layout : Layout)
    (schema : Schema) :
    Ensures (readAll source h layout schema) fun descriptors =>
      ∀ d ∈ descriptors, 0 < d.cardinality := by
  intro handed descriptors hread
  have hpositive := ensures_readColumns_cardinality source h layout schema
  obtain ⟨columns, hcolumns, hcompletes⟩ := ensures_readAll hpositive handed descriptors hread
  cases hcompletes with
  | columns => exact hcolumns
  | related hlast =>
    obtain ⟨offset, -, hlast⟩ := bind_eq_ok.mp hlast
    cases hlast
    intro d hd
    rcases List.mem_append.mp hd with hd | hd
    · exact hcolumns d hd
    · rw [List.mem_singleton.mp hd]
      exact Nat.one_pos

theorem bitStop_le_of_checkWidth {h : Header} (hfixed : h.hasOffsetMap = false)
    {descriptors : List Descriptor} (hcheck : checkWidth h descriptors = .ok ()) :
    ∀ d ∈ descriptors, 0 < d.recordBits → d.bitStop ≤ h.recordBits := by
  intro d hd hbits
  unfold checkWidth at hcheck
  rw [hfixed, if_neg Bool.false_ne_true] at hcheck
  dsimp only at hcheck
  split at hcheck
  case isTrue => cases hcheck
  case isFalse hfits =>
    have hstored : d ∈ descriptors.filter fun d => 0 < d.recordBits :=
      List.mem_filter.mpr ⟨hd, decide_eq_true hbits⟩
    have hreach : d.bitStop ≤
        ((descriptors.filter fun d => 0 < d.recordBits).map bitStop).foldl max 0 := by
      rw [List.foldl_eq_foldr]
      exact List.le_max_of_le (List.mem_map_of_mem hstored) le_rfl
    omega

theorem ensures_readAll_bitStop (source : Source) {h : Header} (hfixed : h.hasOffsetMap = false)
    (layout : Layout) (schema : Schema) :
    Ensures (readAll source h layout schema) fun descriptors =>
      ∀ d ∈ descriptors, 0 < d.recordBits → d.bitStop ≤ h.recordBits := by
  refine ensures_bind fun columns => ?_
  have hchecked (descriptors : List Descriptor) :
      Ensures (do checkWidth h descriptors; return descriptors : Reading (List Descriptor))
        fun descriptors => ∀ d ∈ descriptors, 0 < d.recordBits → d.bitStop ≤ h.recordBits :=
    Ensures.bind (Q := fun _ => checkWidth h descriptors = .ok ()) (ensures_lift fun _ => id)
      fun _ hcheck => ensures_pure (bitStop_le_of_checkWidth hfixed hcheck)
  dsimp only
  split
  · exact ensures_bind fun last => ensures_bind fun descriptors => hchecked descriptors
  · exact ensures_bind fun descriptors => hchecked descriptors

end Descriptor

/-- The bits belong to the field that they are read for. -/
structure Probe.Within (p : Probe) (d : Descriptor) : Prop where
  count : p.count = d.bitSize
  start : d.bitOffset ≤ p.offset
  stop : p.offset + p.count ≤ d.bitStop

namespace Slot

variable {descriptors : List Descriptor}

theorem within_element {d : Descriptor} (slot : Slot) (helement : slot.element < d.cardinality)
    (hbits : d.recordBits = d.bitSize * d.cardinality) :
    Probe.Within ⟨slot.descriptor, d.bitOffset + slot.element * d.bitSize, d.bitSize⟩ d where
  count := rfl
  start := Nat.le_add_right ..
  stop := by
    have hmul : (slot.element + 1) * d.bitSize ≤ d.cardinality * d.bitSize :=
      Nat.mul_le_mul_right _ helement
    rw [Nat.succ_mul, Nat.mul_comm d.cardinality] at hmul
    rw [Descriptor.bitStop, hbits]
    dsimp only
    omega

theorem within_index {d : Descriptor} (slot : Slot) (hbits : d.recordBits = d.bitSize) :
    Probe.Within ⟨slot.descriptor, d.bitOffset, d.bitSize⟩ d where
  count := rfl
  start := Nat.le_refl _
  stop := by rw [Descriptor.bitStop, hbits]

/-- What is read for the elements of fields belongs to those fields. -/
theorem within_of_mem_probes {cached : Option Nat} {slots : List Slot}
    (hslots : ∀ slot ∈ slots, ∃ d, descriptors[slot.descriptor]? = some d ∧
      slot.element < d.cardinality) :
    ∀ p ∈ probes descriptors cached slots,
      ∃ d, descriptors[p.descriptor]? = some d ∧ p.Within d := by
  induction slots generalizing cached with
  | nil => nofun
  | cons slot slots ih =>
    obtain ⟨d, hd, helement⟩ := hslots slot (List.mem_cons_self ..)
    have hrest {known : Option Nat} : ∀ p ∈ probes descriptors known slots,
        ∃ d, descriptors[p.descriptor]? = some d ∧ p.Within d :=
      ih fun other hother => hslots other (List.mem_cons_of_mem _ hother)
    have hcons {known : Option Nat} {first : Probe} (hindex : first.descriptor = slot.descriptor)
        (hfirst : first.Within d) : ∀ p ∈ first :: probes descriptors known slots,
          ∃ d, descriptors[p.descriptor]? = some d ∧ p.Within d :=
      List.forall_mem_cons.mpr ⟨⟨d, by rw [hindex, hd], hfirst⟩, hrest⟩
    unfold probes
    split
    · exact hrest
    · rw [hd]
      dsimp only
      cases hstorage : d.storage with
      | plain | immediate | pallet =>
        exact hcons rfl (within_element slot helement (by rw [Descriptor.recordBits, hstorage]))
      | palletArray =>
        dsimp only
        split
        · exact hrest
        · exact hcons rfl (within_index slot (by rw [Descriptor.recordBits, hstorage]))
      | common | relationship => exact hrest

end Slot

/-- All bits that are read in a row belong to the fields that they are read for. -/
theorem Mapping.within_of_mem_probes {schema : Schema} {descriptors : List Descriptor}
    {column : Nat} {indexed : Bool} {m : Mapping}
    (hbuild : build schema descriptors column indexed = .ok m)
    (hfilled : ∀ d ∈ descriptors, 0 < d.cardinality) :
    ∀ p ∈ m.probes descriptors, ∃ d, descriptors[p.descriptor]? = some d ∧ p.Within d := by
  obtain ⟨left, hleft⟩ := (built_of_build hbuild).slots_append
  intro p hp
  rcases List.mem_append.mp hp with hp | hp
  · refine Slot.within_of_mem_probes (fun slot hslot => ?_) p hp
    apply SlotRun.element_lt_cardinality
    rw [← hleft]
    exact List.mem_append_left _ hslot
  · unfold keyProbes at hp
    cases hkey : m.keyDescriptor? with
    | none =>
      rw [hkey] at hp
      cases hp
    | some index =>
      cases hd : descriptors[index]? with
      | none =>
        rw [hkey] at hp
        simp only [hd] at hp
        cases hp
      | some d =>
        rw [hkey] at hp
        simp only [hd] at hp
        split at hp
        case isFalse => cases hp
        case isTrue hneeded =>
          obtain rfl := List.mem_singleton.mp hp
          refine ⟨d, hd, ?_⟩
          have hbits := Descriptor.recordBits_of_isInline (Bool.and_eq_true_iff.mp hneeded).2
          have hfirst := Slot.within_element ⟨index, 0, false⟩
            (hfilled d (List.mem_of_getElem? hd)) hbits
          rwa [Nat.zero_mul, Nat.add_zero] at hfirst

/-- Two byte strings have the same bits where the probe reads. -/
def Probe.SameBits (p : Probe) (data other : Bytes) : Prop :=
  ∀ bit, p.offset ≤ bit → bit < p.offset + p.count →
    (littleEndian data).testBit bit = (littleEndian other).testBit bit

/-- What comes of reading the bits of a probe: the number of bits is none that can be read, or they
belong to the field, which lies in the row, and are read. -/
inductive Probe.IsSafe (p : Probe) (d : Descriptor) (data : Bytes) : Prop where
  | refused (hcount : p.count < 1 ∨ 64 < p.count)
    (hread : (BitReader.ofBytes data).readAt p.offset p.count =
      .error (.invalid (.bitCount p.count)))
  | inside (hcount : 1 ≤ p.count ∧ p.count ≤ 64) (hstart : d.bitOffset ≤ p.offset)
    (hstop : p.offset + p.count ≤ d.bitOffset + d.recordBits)
    (hrow : d.bitOffset + d.recordBits ≤ 8 * data.length)
    (hread : (BitReader.ofBytes data).readAt p.offset p.count =
      .ok (littleEndian data / 2 ^ p.offset % 2 ^ p.count))

theorem Probe.Within.isSafe {p : Probe} {d : Descriptor} {data : Bytes} (h : p.Within d)
    (hrow : 0 < d.recordBits → d.bitStop ≤ 8 * data.length) : p.IsSafe d data := by
  by_cases hcount : p.count < 1 ∨ 64 < p.count
  · refine .refused hcount ?_
    unfold BitReader.readAt
    rw [if_pos hcount]
    rfl
  · have hstart := h.start
    have hstop := h.stop
    have hstored : 0 < d.recordBits := by
      rw [Descriptor.bitStop] at hstop
      omega
    have hinside := hrow hstored
    refine .inside (by omega) hstart hstop hinside ?_
    unfold BitReader.readAt
    rw [if_neg hcount, if_neg]
    · exact congrArg _ (BitReader.bitsAt_eq data p.offset (by omega))
    · change ¬ 8 * data.length < p.offset + p.count
      omega

theorem Probe.SameBits.readAt_eq {p : Probe} {data other : Bytes} (h : p.SameBits data other)
    (hlength : other.length = data.length) :
    (BitReader.ofBytes data).readAt p.offset p.count =
      (BitReader.ofBytes other).readAt p.offset p.count := by
  unfold BitReader.readAt BitReader.size BitReader.ofBytes
  dsimp only
  rw [hlength]
  by_cases hcount : p.count < 1 ∨ 64 < p.count
  · rw [if_pos hcount, if_pos hcount]
  · have hbits :
        BitReader.bitsAt data p.offset p.count = BitReader.bitsAt other p.offset p.count := by
      rw [BitReader.bitsAt_eq _ _ (by omega), BitReader.bitsAt_eq _ _ (by omega)]
      apply Nat.eq_of_testBit_eq
      intro bit
      rw [Nat.testBit_mod_two_pow, Nat.testBit_mod_two_pow, Nat.testBit_div_two_pow,
        Nat.testBit_div_two_pow]
      by_cases hbit : bit < p.count
      · rw [h (bit + p.offset) (by omega) (by omega)]
      · simp [hbit]
    rw [hbits]

/-- Two readers that give the same at every probe, and do not run over the end of their row. -/
def BitReader.AnswerAlike (probes : List Probe) (r q : BitReader) : Prop :=
  ∀ p ∈ probes, r.readAt p.offset p.count = q.readAt p.offset p.count ∧
    ThrowsOnly (fun e => e.isOverrun = false) (r.readAt p.offset p.count)

namespace RowContext

theorem wordsAgree_answerAlike (c : RowContext) :
    c.WordsAgree false false (fun e => e.isOverrun = false) BitReader.AnswerAlike := by
  rintro d index element signed palletIndex probes s t ⟨hleft, hright, hstrings, hbits⟩
  obtain ⟨⟨hsame, hfails⟩, hothers⟩ := List.forall_mem_cons.mp hbits
  have hrun (u : RowState) : ((c.withMode false).inlineWord d element signed).on u =
      (u.bits.readWordAt (d.bitOffset + element * d.bitSize) d.bitSize signed, u) := rfl
  rw [hrun, hrun]
  refine ⟨?_, ?_, fun _ _ => ⟨hleft, hright, hstrings, hothers⟩⟩
  · unfold BitReader.readWordAt
    rw [hsame]
  · exact hfails.bind fun _ _ => throwsOnly_ok _

theorem textsAgree_answerAlike (c : RowContext) :
    c.TextsAgree false false (fun e => e.isOverrun = false) BitReader.AnswerAlike := by
  intro d index element palletIndex probes
  refine inStep_get_bind fun s t ⟨hleft, hright, hstrings, hbits⟩ => ?_
  obtain ⟨⟨hsame, hfails⟩, hothers⟩ := List.forall_mem_cons.mp hbits
  dsimp only at hsame hfails ⊢
  rw [← hsame]
  refine InStep.bind (Q := Kin BitReader.AnswerAlike palletIndex probes) ?_ fun stored => ?_
  · refine (inStep_lift hfails).mono (fun _ _ => id) ?_
    rintro _ _ ⟨rfl, rfl, _⟩
    exact ⟨hleft, hright, hstrings, hothers⟩
  · exact (inStep_lift (throwsOnly_stringOffset_of (fun _ => id) _ _ stored)).bind fun offset =>
      Decode.inStep_string (fun _ => id) (RowState.shares_kin palletIndex probes) offset

/-- The key is read where the key's probe says. -/
theorem inStep_bodyKey {c : RowContext} {m : Mapping} (hneeded : m.needsKey = true)
    (body : List Elements) :
    InStep (fun e => e.isOverrun = false)
      (Ahead BitReader.AnswerAlike c.descriptors (m.keyProbes c.descriptors) [])
      (fun s t => s.strings = t.strings) (m.bodyKey (c.withMode false) body)
      (m.bodyKey (c.withMode false) body) := by
  cases hdecoded : m.decodedKey body with
  | some key =>
    rw [Mapping.bodyKey_of_decoded hdecoded]
    exact (inStep_pure _).mono (fun s t h => h.choose_spec.strings) fun _ _ => id
  | none =>
    cases hdescriptor : m.keyDescriptor? with
    | none =>
      rw [Mapping.bodyKey_of_unknown hdecoded (Or.inr hdescriptor)]
      exact (inStep_pure _).mono (fun s t h => h.choose_spec.strings) fun _ _ => id
    | some index =>
      rw [Mapping.bodyKey_of_fixed hdecoded hdescriptor rfl]
      refine InStep.bind (Q := fun s t => s.strings = t.strings) ?_ fun key => inStep_pure _
      refine inStep_descriptor_bind (fun _ => id) fun d hd => ?_
      have hread (hinline : d.isInline = true) :
          InStep (fun e => e.isOverrun = false)
            (Ahead BitReader.AnswerAlike c.descriptors (m.keyProbes c.descriptors) [])
            (fun s t => s.strings = t.strings)
            (do return UInt32.ofNat (← (c.withMode false).inlineWord d 0 false).toNat)
            (do return UInt32.ofNat (← (c.withMode false).inlineWord d 0 false).toNat) := by
        refine InStep.bind (Q := fun s t => s.strings = t.strings) ?_ fun word => inStep_pure _
        rintro s t ⟨palletIndex, hkin⟩
        have hprobes : m.keyProbes c.descriptors =
            [⟨index, d.bitOffset + 0 * d.bitSize, d.bitSize⟩] := by
          unfold Mapping.keyProbes
          simp [hdescriptor, hd, hneeded, hinline]
        rw [Slot.probes, List.nil_append, hprobes] at hkin
        have hword := (c.wordsAgree_answerAlike d index 0 false palletIndex []).mono
          (fun _ _ => id) fun s t h => h.strings
        exact hword s t hkin
      cases hstorage : d.storage with
      | plain | immediate => exact hread (by rw [Descriptor.isInline, hstorage])
      | common | pallet | palletArray | relationship => exact inStep_throw rfl

end RowContext

/-- Rows of fixed size are never overrun. The bits that are read in a row of a file are those of the
mapping's probes: no others have a bearing on the values, and each of them lies in its own field in
the row, unless its number is none that can be read. -/
theorem Mapping.values_of_fixed {source : Source} {h : Header} (hfixed : h.hasOffsetMap = false)
    {layout : Layout} {fileSchema : Schema} {handed : Nat} {descriptors : List Descriptor}
    (hread : ((Descriptor.readAll source h layout fileSchema).on handed).1 = .ok descriptors)
    {schema : Schema} {column : Nat} {indexed : Bool} {m : Mapping}
    (hbuild : build schema descriptors column indexed = .ok m) {c : RowContext}
    (hdescriptors : c.descriptors = descriptors) (hmode : c.isVariable = false) {data : Bytes}
    (hsize : data.length = h.recordSize.toNat) (strings : StringTable)
    (external : Option UInt32) :
    (∀ e, ((m.values c external).on (.start data strings)).1 = .error e → e.isOverrun = false) ∧
      (∀ p ∈ m.probes descriptors,
        ∃ d, descriptors[p.descriptor]? = some d ∧ p.IsSafe d data) ∧
      ∀ other : Bytes, other.length = data.length →
        (∀ p ∈ m.probes descriptors, p.SameBits data other) →
        ((m.values c external).on (.start other strings)).1 =
          ((m.values c external).on (.start data strings)).1 := by
  subst hdescriptors
  have hfilled := Descriptor.ensures_readAll_cardinality source h layout fileSchema handed _ hread
  have hstops := Descriptor.ensures_readAll_bitStop source hfixed layout fileSchema handed _ hread
  have hwhole : h.recordBits = 8 * data.length := by
    rw [hsize, Header.recordBits, Nat.mul_comm]
  have hsafe : ∀ p ∈ m.probes c.descriptors,
      ∃ d, c.descriptors[p.descriptor]? = some d ∧ p.IsSafe d data := by
    intro p hp
    obtain ⟨d, hd, hwithin⟩ := within_of_mem_probes hbuild hfilled p hp
    refine ⟨d, hd, hwithin.isSafe fun hbits => ?_⟩
    rw [← hwhole]
    exact hstops d (List.mem_of_getElem? hd) hbits
  -- Other bytes, or the same ones: then only what the row fails with is of interest.
  have hsame (other : Bytes) (hlength : other.length = data.length)
      (hbits : ∀ p ∈ m.probes c.descriptors, p.SameBits data other) :
      ((m.values c external).on (.start data strings)).1 =
          ((m.values c external).on (.start other strings)).1 ∧
        ThrowsOnly (fun e => e.isOverrun = false)
          ((m.values c external).on (.start data strings)).1 := by
    have hcontext : c.withMode false = c := by
      rw [RowContext.withMode, ← hmode]
    have hstart : Ahead BitReader.AnswerAlike c.descriptors (m.keyProbes c.descriptors)
        (m.slots ++ []) (.start data strings) (.start other strings) := by
      refine ⟨none, rfl, rfl, rfl, ?_⟩
      rw [List.append_nil]
      intro p hp
      refine ⟨(hbits p hp).readAt_eq hlength, ?_⟩
      obtain ⟨d, _, hprobe⟩ := hsafe p hp
      change ThrowsOnly _ ((BitReader.ofBytes data).readAt p.offset p.count)
      cases hprobe with
      | refused _ hread =>
        rw [hread]
        exact throwsOnly_error rfl
      | inside _ _ _ _ hread =>
        rw [hread]
        exact throwsOnly_ok _
    rw [← hcontext]
    exact values_inStep (fun _ => id) c.wordsAgree_answerAlike
      (fun _ _ _ _ => c.textsAgree_answerAlike)
      (fun hneeded _ body _ _ => RowContext.inStep_bodyKey hneeded body) hstart
  refine ⟨fun e he => (hsame data rfl fun _ _ _ _ _ => rfl).2 e he, hsafe, ?_⟩
  intro other hlength hbits
  exact (hsame other hlength hbits).1.symm

/-- The storage info of two bytes as they are, of an array of two at an index of twelve bits, and of
four bits. -/
def packedInfo : Bytes :=
  [0, 0, 16, 0, 0, 0, 0, 0, 0, 0, 0, 0, 0, 0, 0, 0, 0, 0, 0, 0, 0, 0, 0, 0,
    16, 0, 12, 0, 16, 0, 0, 0, 4, 0, 0, 0, 0, 0, 0, 0, 0, 0, 0, 0, 2, 0, 0, 0,
    28, 0, 4, 0, 0, 0, 0, 0, 1, 0, 0, 0, 0, 0, 0, 0, 0, 0, 0, 0, 0, 0, 0, 0]

def packedFields : List Descriptor :=
  [⟨0, 16, 1, .plain false⟩, ⟨16, 12, 2, .palletArray ⟨0, 16⟩⟩, ⟨28, 4, 1, .immediate false⟩]

def packedMapping : Mapping where
  fields := [⟨.u16, false, .slots [⟨0, 0, false⟩]⟩,
    ⟨.u32, true, .slots [⟨1, 0, false⟩, ⟨1, 1, false⟩]⟩, ⟨.u8, false, .slots [⟨2, 0, false⟩]⟩]
  keyField? := some 0
  keyDescriptor? := some 0

theorem values_of_packedFields :
    ((Descriptor.readAll (.memory packedInfo) (.basic .wdc1 1 3 4 0)
        ⟨[⟨.fieldStorageInfo, 0, 72⟩], []⟩ .empty).on 0).1 = .ok packedFields ∧
      packedMapping.probes packedFields = [⟨0, 0, 16⟩, ⟨1, 16, 12⟩, ⟨2, 28, 4⟩] ∧
      ∀ p ∈ packedMapping.probes packedFields, ∃ d,
        packedFields[p.descriptor]? = some d ∧ p.IsSafe d [1, 2, 0, 0x10] := by
  have hread : ((Descriptor.readAll (.memory packedInfo) (.basic .wdc1 1 3 4 0)
      ⟨[⟨.fieldStorageInfo, 0, 72⟩], []⟩ .empty).on 0).1 = .ok packedFields := by
    decide +kernel
  have hbuild : Mapping.build (.ofList [.scalar "first" .u16, .array "pair" .u32 2,
      .scalar "last" .u8]) packedFields 0 false = .ok packedMapping := by
    decide +kernel
  have hsize : ([1, 2, 0, 0x10] : Bytes).length =
      (Header.basic .wdc1 1 3 4 0).recordSize.toNat := rfl
  refine ⟨hread, by decide, ?_⟩
  exact (Mapping.values_of_fixed rfl hread hbuild (c := ⟨packedFields, 0, 0, false, false, 0,
    none, some ⟨[1, 0, 0, 0, 2, 0, 0, 0, 3, 0, 0, 0, 4, 0, 0, 0]⟩, none⟩) rfl rfl
    hsize (.ofBytes [] true) none).2.1

end ClientTable
