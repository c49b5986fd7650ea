import ClientTable.Proofs.FixedReads
import ClientTable.Proofs.MovedRows
import ClientTable.Proofs.RowElements
import ClientTable.Proofs.Texts

namespace ClientTable

open Attempt

/-- What comes of looking for a text at a distance from the start of a block: the text up to the
next zero byte, or an error if there is none to be found there. -/
structure StringTable.Answers (block : Bytes) (distance : Int) (outcome : Except Error Scalar) :
    Prop where
  found : ∀ before text behind, block = before ++ (text ++ 0 :: behind) →
    (before.length : Int) = distance → before.length < wordLimit → 0 ∉ text →
    outcome = .ok (.text (Utf8.decode text))
  refused : distance < 0 ∨ wordLimit ≤ distance ∨ 0 ∉ block.drop distance.toNat →
    ∃ fault, outcome = .error (.invalid fault)

namespace StringTable

variable {block : Bytes} {distance : Int}

theorem textAt_of_unterminated {offset : UInt32} (h : 0 ∉ block.drop offset.toNat) :
    ∃ fault, textAt block offset = .error (.invalid fault) := by
  unfold textAt
  split
  · exact ⟨_, rfl⟩
  · rw [terminated?_eq_none h]
    exact ⟨_, rfl⟩

theorem answers_error (fault : Fault)
    (h : distance < 0 ∨ wordLimit ≤ distance ∨ (block.length : Int) ≤ distance) :
    Answers block distance (.error (.invalid fault)) where
  found before text behind hblock hlength hsmall htext := by
    have hinside := congrArg List.length hblock
    rw [List.length_append, List.length_append, List.length_cons] at hinside
    omega
  refused _ := ⟨fault, rfl⟩

end StringTable

/-- Looking up a text does not depend on the texts that have been found before. -/
theorem Decode.answers_string {texts : Bytes} {s : RowState} (hs : s.strings.Keeps texts)
    (offset : UInt32) :
    StringTable.Answers texts offset.toNat ((Decode.string offset).on s).1 := by
  have hlookup : ((Decode.string offset).on s).1 =
      (StringTable.textAt texts offset).map .text := by
    unfold Decode.string
    rw [on_bind, on_focus, ← (hs.on_resolve offset).1]
    rcases (StringTable.resolve offset).on s.strings with ⟨_ | text, after⟩ <;> rfl
  rw [hlookup]
  refine ⟨fun before text behind hblock hlength _ htext => ?_, fun hrefused => ?_⟩
  · rw [StringTable.textAt_of_append hblock (Int.ofNat.inj hlength).symm htext]
    rfl
  · have hword : offset.toNat < wordLimit := offset.toNat_lt
    have hnone : 0 ∉ texts.drop offset.toNat := by
      rcases hrefused with hnegative | hlarge | hnone
      · omega
      · omega
      · exact hnone
    obtain ⟨fault, hfault⟩ := StringTable.textAt_of_unterminated hnone
    exact ⟨fault, by rw [hfault]; rfl⟩

/-- What comes of a string cell that starts at a bit of a row and holds a number. -/
structure Section.ReadsCell (s : Section) (h : Header) (row : Row) (bit stored : Nat)
    (outcome : Except Error Scalar) : Prop where
  absolute : h.signature.hasRelativeStrings = false →
    StringTable.Answers s.strings.bytes (stored % wordLimit : Nat) outcome
  relative : h.signature.hasRelativeStrings = true →
    StringTable.Answers s.strings.bytes
      ((row.offset + bit / 8 + stored : Nat) - s.stringBlockStart) outcome

namespace RowContext

variable {c : RowContext} {texts : Bytes} {state : RowState}

theorem answers_stringOffset_of_absolute (hplain : c.hasRelativeStrings = false)
    (hs : state.strings.Keeps texts) (bit stored : Nat) :
    StringTable.Answers texts (stored % wordLimit : Nat)
      ((do Decode.string (← c.stringOffset bit stored) : Decode Scalar).on state).1 := by
  have hoffset : c.stringOffset bit stored = .ok (UInt32.ofNat stored) := by
    unfold stringOffset
    rw [hplain]
    rfl
  rw [hoffset]
  have hanswers := Decode.answers_string hs (UInt32.ofNat stored)
  rwa [UInt32.toNat_ofNat'] at hanswers

theorem answers_stringOffset_of_relative (hrelative : c.hasRelativeStrings = true)
    (hs : state.strings.Keeps texts) (hroom : c.stringBlockStart + texts.length < positionLimit)
    (bit stored : Nat) :
    StringTable.Answers texts ((c.offset + bit / 8 + stored : Nat) - c.stringBlockStart)
      ((do Decode.string (← c.stringOffset bit stored) : Decode Scalar).on state).1 := by
  unfold stringOffset
  rw [hrelative, if_pos rfl]
  dsimp only
  -- Each guard stops a position at which nothing is to be found. The first one does so because the
  -- block ends below the limit.
  split
  case isTrue hlarge => exact StringTable.answers_error _ (by omega)
  case isFalse =>
    split
    case isTrue hbefore => exact StringTable.answers_error _ (by omega)
    case isFalse hstart =>
      split
      case isTrue hpast => exact StringTable.answers_error _ (by omega)
      case isFalse hrange =>
        have hanswers := Decode.answers_string hs
          (UInt32.ofNat (c.offset + bit / 8 + stored - c.stringBlockStart))
        rw [toNat_ofNat_of_lt (Nat.not_le.mp hrange), Int.ofNat_sub (Nat.not_lt.mp hstart)]
          at hanswers
        exact hanswers

theorem on_inlineString_of_fixed (hfixed : c.isVariable = false) {d : Descriptor} {element : Nat}
    {bits : BitVec d.bitSize} (hwidth : 1 ≤ d.bitSize ∧ d.bitSize ≤ 64)
    (hstored : BitField.StoredAt state.bits.data (d.bitOffset + element * d.bitSize)
      ⟨d.bitSize, bits⟩) :
    (c.inlineString d element).on state =
      (do Decode.string (← c.stringOffset (d.bitOffset + element * d.bitSize) bits.toNat) :
        Decode Scalar).on state := by
  unfold inlineString
  rw [hfixed, if_neg Bool.false_ne_true, on_bind_of_ok (on_get state),
    hstored.readAt hwidth.1 hwidth.2]
  rfl

end RowContext

namespace Reader

variable {stream : Stream} {schema : Schema} {options : Options} {reader : Reader} {count : Nat}
  {h : Header} {layout : SectionLayout} {s : Section} {index element : Nat} {d : Descriptor}

/-- An element that stands in rows of one size has its bits in each of them. -/
theorem exists_storedAt (hopen : ((ofStream stream schema options).on count).1 = .ok reader)
    (hsection : reader.HasSection h layout s) (hfixed : h.hasOffsetMap = false)
    (hd : reader.metadata.descriptors[index]? = some d) (hinline : d.isInline = true)
    (hpositive : 1 ≤ d.bitSize) (helement : element < d.cardinality) {row : Row}
    (hrow : row ∈ s.rows.rows) {data : Bytes}
    (hdata : reader.source.block row.offset row.length = .ok data) :
    ∃ bits, BitField.StoredAt data (d.bitOffset + element * d.bitSize) ⟨d.bitSize, bits⟩ := by
  have hread := ((ensures_isRead stream schema options count reader hopen).of_header
    hsection.isHeader).2
  have hstop := hread.of_ensures (Descriptor.ensures_readAll_bitStop reader.source hfixed
    reader.metadata.layout schema) d (List.mem_of_getElem? hd)
  have hbits := Descriptor.recordBits_of_isInline hinline
  have hwithin := (Slot.within_element ⟨index, element, false⟩ helement hbits).stop
  have hstored : 0 < d.recordBits := by
    rw [hbits]
    exact Nat.mul_pos hpositive (Nat.zero_lt_of_lt helement)
  have hlength : data.length = h.recordSize.toNat := by
    obtain ⟨area, -, hrows⟩ := hsection.fresh.fixed hfixed
    rw [hrows] at hrow
    obtain ⟨i, -, rfl⟩ := List.mem_map.mp hrow
    exact (Source.block_eq_ok_iff.mp hdata).1
  have hrecord : h.recordBits = 8 * data.length := by
    rw [hlength, Header.recordBits, Nat.mul_comm]
  have hinside := hstop hstored
  dsimp only at hwithin
  refine ⟨BitVec.ofNat d.bitSize
    (littleEndian data / 2 ^ (d.bitOffset + element * d.bitSize)), ?_, ?_⟩
  · dsimp only
    omega
  · rw [BitVec.toNat_ofNat]

/-- Every string cell of a row of one size holds a number. It stands for the text that this number
leads to, or else reading it is an error. -/
theorem string_cells (hopen : ((ofStream stream schema options).on count).1 = .ok reader)
    (hsection : reader.HasSection h layout s) (hfixed : h.hasOffsetMap = false)
    (hd : reader.metadata.descriptors[index]? = some d) (hinline : d.isInline = true)
    (hwidth : 1 ≤ d.bitSize ∧ d.bitSize ≤ 64) (helement : element < d.cardinality) :
    s.HasTexts reader.source layout ∧
      ∀ row ∈ s.rows.rows, ∀ data, reader.source.block row.offset row.length = .ok data →
        ∃ bit stored, bit = d.bitOffset + element * d.bitSize ∧
          BitField.StoredAt data bit ⟨d.bitSize, stored⟩ ∧
          (∀ shared state, state.bits.data = data → state.strings.Keeps s.strings.bytes →
            s.ReadsCell h row bit stored.toNat
              (((s.context reader.metadata shared row).element index element .text).on state).1) ∧
          ∀ records base field position, reader.HasRecord records h layout s row base →
            reader.Feeds layout ⟨index, element, false⟩ .text field position →
            ∃ v, base.element? field position = some v ∧
              s.ReadsCell h row bit stored.toNat (.ok v) := by
  have htexts := Section.ensures_read_hasTexts reader.source h layout
    reader.options.internStrings 0 s hsection.opens
  obtain ⟨area, hparts⟩ := Section.ensures_read_putTogether reader.source h layout
    reader.options.internStrings 0 s hsection.opens
  -- The block is a segment of the section, or it has no bytes and would be behind one.
  have hroom : s.stringBlockStart + s.strings.bytes.length < positionLimit := by
    obtain ⟨segment, hsegment, hstop⟩ := htexts.exists_stop
    have hplan := ensures_plan stream schema options count reader hopen h hsection.isHeader
    rw [hstop]
    exact ((Layout.isBounded_of_plan hplan).sections layout hsection.isSection).segments
      segment hsegment
  refine ⟨htexts, fun row hrow data hdata => ?_⟩
  obtain ⟨stored, hstored⟩ :=
    exists_storedAt hopen hsection hfixed hd hinline hwidth.1 helement hrow hdata
  have hcell (shared : SharedTables) (state : RowState) (hbits : state.bits.data = data)
      (hs : state.strings.Keeps s.strings.bytes) :
      s.ReadsCell h row (d.bitOffset + element * d.bitSize) stored.toNat
        (((s.context reader.metadata shared row).element index element .text).on state).1 := by
    have hvariable : (s.context reader.metadata shared row).isVariable = false :=
      hparts.isVariable.trans hfixed
    rw [← hbits] at hstored
    rw [RowContext.on_element_text hd hinline,
      RowContext.on_inlineString_of_fixed hvariable hwidth hstored]
    refine ⟨fun hplain => ?_, fun hrelative => ?_⟩
    · exact RowContext.answers_stringOffset_of_absolute
        (hparts.hasRelativeStrings.trans hplain) hs _ _
    · exact RowContext.answers_stringOffset_of_relative
        (c := s.context reader.metadata shared row) (hparts.hasRelativeStrings.trans hrelative) hs
        hroom _ _
  refine ⟨_, stored, rfl, hstored, hcell, fun records base field position hbase hfeeds => ?_⟩
  obtain ⟨v, state, hv, hcomes, hvalue⟩ :=
    hbase.exists_read hopen hfeeds hd (Descriptor.isCommon_of_isInline hinline)
  obtain ⟨hblock, hs⟩ := hcomes.holds hsection.fresh.strings
  rw [hdata] at hblock
  have hreads := hcell records.shared state (Except.ok.inj hblock).symm hs
  rw [hvalue] at hreads
  exact ⟨v, hv, hreads⟩

/-- A record whose string cell is 64 bits wide. The text that its low half leads to is in the string
block. -/
def wideCell : Bytes :=
  wordFile .wdb5 [1, 2, 12, 3, 0, 0, 0, 0, 0, 0, 0, 0, 0x0004FFE0, 5, 1, 1] ++ [0, 97, 0]

def namedSchema : Schema :=
  ⟨[.scalar "id" .u32, .scalar "name" .text]⟩

def namedMapping : Mapping where
  fields := [⟨.u32, false, .slots [⟨0, 0, false⟩]⟩, ⟨.text, false, .slots [⟨1, 0, false⟩]⟩]
  keyField? := some 0
  keyDescriptor? := some 0

theorem string_cells_wideCell :
    ∃ f ∈ firstRecord? wideCell namedSchema,
      ((ofStream ⟨wideCell, 0, none⟩ namedSchema .default).on 0).1 = .ok f.reader ∧
      f.reader.HasSection f.header f.layout f.opened ∧ f.header.hasOffsetMap = false ∧
      f.reader.metadata.descriptors[1]? = some ⟨32, 64, 1, .plain false⟩ ∧
      f.opened.HasTexts f.reader.source f.layout ∧
      ∃ stored : BitVec 64, BitField.StoredAt f.data 32 ⟨64, stored⟩ ∧
        ∃ v, f.base.element? 1 0 = some v ∧
          f.opened.ReadsCell f.header f.row 32 stored.toNat (.ok v) := by
  have hrun : ∃ f ∈ firstRecord? wideCell namedSchema, f.header.hasOffsetMap = false ∧
      f.reader.metadata.descriptors[1]? = some ⟨32, 64, 1, .plain false⟩ ∧
      f.reader.source.block f.row.offset f.row.length = .ok f.data ∧
      f.reader.metadata.mappings[f.layout.index]? = some namedMapping := by
    decide +kernel
  obtain ⟨f, hf, hfixed, hd, hdata, hmapping⟩ := hrun
  obtain ⟨hopen, -, hrecord⟩ := FirstRecord.hasRecord hf
  have hsection := hrecord.hasSection
  have hfeeds : f.reader.Feeds f.layout ⟨1, 0, false⟩ .text 1 0 :=
    ⟨_, false, [⟨1, 0, false⟩], hmapping, rfl, rfl⟩
  obtain ⟨htexts, hcells⟩ :=
    string_cells hopen hsection hfixed hd rfl (by decide) Nat.one_pos
  obtain ⟨_, stored, rfl, hstored, -, hrecords⟩ := hcells f.row hrecord.isRow f.data hdata
  exact ⟨f, hf, hopen, hsection, hfixed, hd, htexts, stored, hstored,
    hrecords f.records f.base 1 0 hrecord hfeeds⟩

/-- An offset of more than 32 bits, which is beyond any block, is taken for another one. -/
theorem string_cells_of_low_half :
    ∃ f ∈ firstRecord? wideCell namedSchema,
      f.reader.HasRecord f.records f.header f.layout f.opened f.row f.base ∧
      f.reader.Feeds f.layout ⟨1, 0, false⟩ .text 1 0 ∧
      f.reader.metadata.descriptors[1]? = some ⟨32, 64, 1, .plain false⟩ ∧
      BitField.StoredAt f.data 32 ⟨64, 4294967297⟩ ∧ f.opened.strings.bytes = [0, 97, 0] ∧
      f.base.element? 1 0 = some (.text "a") ∧
      ¬ StringTable.Answers f.opened.strings.bytes 4294967297 (.ok (.text "a")) := by
  have hrun : ∃ f ∈ firstRecord? wideCell namedSchema,
      f.reader.metadata.descriptors[1]? = some ⟨32, 64, 1, .plain false⟩ ∧
      f.reader.metadata.mappings[f.layout.index]? = some namedMapping ∧
      (32 + 64 ≤ 8 * f.data.length ∧ littleEndian f.data / 2 ^ 32 % 2 ^ 64 = 4294967297) ∧
      f.opened.strings.bytes = [0, 97, 0] ∧ f.base.element? 1 0 = some (.text "a") := by
    decide +kernel
  obtain ⟨f, hf, hd, hmapping, hstored, htexts, hvalue⟩ := hrun
  obtain ⟨-, -, hrecord⟩ := FirstRecord.hasRecord hf
  refine ⟨f, hf, hrecord, ⟨_, false, [⟨1, 0, false⟩], hmapping, rfl, rfl⟩, hd, hstored, htexts,
    hvalue, fun hanswers => ?_⟩
  obtain ⟨fault, hfault⟩ := hanswers.refused (.inr (.inl (by decide)))
  cases hfault

end Reader

end ClientTable
