import ClientTable.Machine.Sections
import ClientTable.Proofs.MachineOpening

namespace ClientTable

open Attempt

/-- A row that ends below 64 bits. -/
structure Row.IsBounded (row : Row) : Prop where
  length : row.length < wordLimit
  stop : row.offset + row.length < positionLimit

/-- No row that is left ends beyond 64 bits, and the rows can be counted with a word. -/
def RowCursor.IsBounded : RowCursor → Prop
  | fixed start stride count _ =>
    count < wordLimit ∧ stride < wordLimit ∧ start + count * stride < positionLimit
  | located locations next => next + locations.length < wordLimit

/-- One step: the next row ends below 64 bits, and so do those after it. -/
theorem RowCursor.IsBounded.next? {cursor after : RowCursor} (h : cursor.IsBounded) {row : Row}
    (hnext : cursor.next? = some (row, after)) : row.IsBounded ∧ after.IsBounded := by
  cases cursor with
  | fixed start stride count next =>
      obtain ⟨hcount, hstride, hstop⟩ := h
      rw [RowCursor.next?] at hnext
      split at hnext
      case isFalse => cases hnext
      case isTrue hleft =>
          cases hnext
          have hmul : (next + 1) * stride ≤ count * stride := Nat.mul_le_mul_right _ hleft
          rw [Nat.succ_mul] at hmul
          exact ⟨⟨hstride, by dsimp only; omega⟩, hcount, hstride, hstop⟩
  | located locations next =>
      cases locations with
      | nil => cases hnext
      | cons l locations =>
          cases hnext
          have hoffset := l.offset.toNat_lt
          have hlength := l.length.toNat_lt
          refine ⟨⟨Nat.lt_trans hlength (by decide), ?_⟩, ?_⟩
          · dsimp only
            rw [positionLimit]
            omega
          · have hleft : next + (locations.length + 1) < wordLimit := h
            show next + 1 + locations.length < wordLimit
            omega

theorem SectionLayout.stop_lt_of_find? {h : Header} {layout : SectionLayout}
    (hlayout : layout.IsBounded h) {kind : SegmentKind} {segment : Segment}
    (hfound : layout.find? kind = some segment) : segment.stop < positionLimit :=
  hlayout.segments segment (List.mem_of_find?_eq_some hfound)

/-- The rows that are left end below 64 bits, and copies can be counted with a word of 64 bits. -/
structure Section.IsBounded (s : Section) : Prop where
  rows : s.rows.IsBounded
  copies : s.copies.size < positionLimit

/-- The rows of a section that has just been opened. -/
theorem Section.Fresh.isBounded_rows {source : Source} {h : Header} {layout : SectionLayout}
    {s : Section} (fresh : s.Fresh source h layout) (hlayout : layout.IsBounded h) :
    s.rows.IsBounded := by
  have hcount : layout.recordCount.toNat < wordLimit := layout.recordCount.toNat_lt
  cases hmap : h.hasOffsetMap with
  | false =>
      obtain ⟨area, harea, hrows⟩ := fresh.fixed hmap
      have hmem := List.mem_of_find?_eq_some harea
      have hkind : area.kind = .records := by
        simpa using List.find?_some harea
      have hlength := hlayout.area hmap area hmem hkind
      rw [hrows]
      refine ⟨hcount, h.recordSize.toNat_lt, ?_⟩
      rw [← hlength]
      exact hlayout.segments area hmem
  | true =>
      obtain ⟨segment, used, _, _, hlength, hrows⟩ := fresh.located hmap
      rw [hrows]
      show 0 + used.length < wordLimit
      omega

theorem Section.Fresh.isBounded {source : Source} {h : Header} {layout : SectionLayout}
    {s : Section} (fresh : s.Fresh source h layout) (hlayout : layout.IsBounded h) :
    s.IsBounded := by
  refine ⟨fresh.isBounded_rows hlayout, ?_⟩
  rw [fresh.copies]
  cases hfound : layout.find? .copyTable with
  | none => exact Nat.lt_trans zero_lt_wordLimit (by decide)
  | some segment =>
      have hlength := hlayout.length_of_copyTable hfound
      have hle : segment.length / CopyTable.entrySize ≤ segment.length := Nat.div_le_self ..
      exact Nat.lt_of_le_of_lt hle (Nat.lt_trans hlength (by decide))

theorem Section.length_duplicateKeys_le (s : Section) (record : Record) :
    (s.duplicateKeys record).length ≤ s.copies.size := by
  unfold Section.duplicateKeys
  cases record.key? with
  | none => exact Nat.zero_le _
  | some key =>
      exact (List.length_map _).trans_le (List.length_filter_le ..)

namespace Machine

open Guarded

section

variable {source : Source} (horigin : source.origin = 0) {m : Metadata} {h : Header}

include horigin

theorem mirrors_readPallet (hlayout : m.layout.IsBounded h) :
    Mirrors (Holds source) (readPallet m.layout) (SharedTables.readPallet source m.layout) := by
  unfold readPallet SharedTables.readPallet
  cases hfound : m.layout.findShared? .palletData with
  | none => exact mirrors_pure none
  | some segment =>
      have hsegment := isAddressable_of_findShared? hlayout hfound
      exact (mirrors_readPalletTable horigin hsegment).bind fun _ => mirrors_pure _

theorem mirrors_readCommon (hm : m.IsBounded) (hlayout : m.layout.IsBounded h) :
    Mirrors (Holds source) (readCommon m h) (SharedTables.readCommon source m h) := by
  have hchunks (d : Descriptor) (hd : d ∈ m.descriptors) : d.chunk.stop < positionLimit :=
    Nat.lt_trans (hm.descriptors d hd).chunk (by decide)
  unfold readCommon SharedTables.readCommon
  cases hfound : m.layout.findShared? .commonData with
  | none => exact mirrors_pure none
  | some segment =>
      have hsegment := isAddressable_of_findShared? hlayout hfound
      exact (mirrors_readCommonTable horigin hsegment h hchunks).bind fun _ => mirrors_pure _

theorem mirrors_readShared (hm : m.IsBounded) :
    Mirrors (Holds source) (readShared m) (SharedTables.read source m) := by
  unfold readShared SharedTables.read
  cases hheader : m.header with
  | none => exact mirrors_pure _
  | some h =>
      have hlayout := hm.layout h hheader
      exact (mirrors_readPallet horigin hlayout).bind fun _ =>
        (mirrors_readCommon horigin hm hlayout).bind fun _ => mirrors_pure _

end

section

variable {source : Source} (horigin : source.origin = 0) {h : Header} {layout : SectionLayout}
  (hlayout : layout.IsBounded h)

include horigin hlayout

theorem mirrors_readStrings {records : Segment} (hrecords : IsAddressable records)
    (intern : Bool) :
    Mirrors (Holds source) (readStrings layout records intern)
      (Section.readStrings source layout records intern) := by
  unfold readStrings Section.readStrings
  cases hfound : layout.find? .stringBlock with
  | none =>
      dsimp only
      rw [trap_bind (Checked.add_of_lt hrecords)]
      exact mirrors_pure _
  | some segment =>
      have hsegment := SectionLayout.stop_lt_of_find? hlayout hfound
      exact (mirrors_readStringTable horigin hsegment intern).bind fun _ => mirrors_pure _

theorem mirrors_readRows {records : Segment} (hrecords : IsAddressable records) :
    Mirrors (Holds source) (readRows h layout records)
      (Section.readRows source h layout records) := by
  unfold readRows Section.readRows
  split
  · cases hfound : layout.find? .offsetMap with
    | none => exact mirrors_throw _
    | some segment =>
        have hsegment := SectionLayout.stop_lt_of_find? hlayout hfound
        exact (mirrors_readLocations horigin hsegment hrecords _).bind fun _ => mirrors_pure _
  · exact mirrors_pure _

theorem mirrors_readKeys :
    Mirrors (Holds source) (readKeys layout) (Section.readKeys source layout) := by
  unfold readKeys Section.readKeys
  cases hfound : layout.find? .indexTable with
  | none => exact mirrors_pure none
  | some segment =>
      have hsegment := SectionLayout.stop_lt_of_find? hlayout hfound
      exact (mirrors_readIndexTable horigin hsegment _).bind fun _ => mirrors_pure _

theorem mirrors_readCopies :
    Mirrors (Holds source) (readCopies layout) (Section.readCopies source layout) := by
  unfold readCopies Section.readCopies
  cases hfound : layout.find? .copyTable with
  | none => exact mirrors_pure _
  | some segment =>
      exact mirrors_readCopyTable horigin (SectionLayout.stop_lt_of_find? hlayout hfound)

theorem mirrors_readRelationships :
    Mirrors (Holds source) (readRelationships h layout)
      (Section.readRelationships source h layout) := by
  unfold readRelationships Section.readRelationships
  cases hfound : layout.find? .relationshipTable with
  | none => exact mirrors_pure none
  | some segment =>
      have hsegment := SectionLayout.stop_lt_of_find? hlayout hfound
      exact (mirrors_readRelationshipTable horigin hsegment _).bind fun _ => mirrors_pure _

theorem mirrors_readSection (intern : Bool) :
    Mirrors (Holds source) (readSection h layout intern)
      (Section.read source h layout intern) := by
  unfold readSection Section.read
  cases hfound : layout.segments.find? fun s => s.kind = .records with
  | none => exact mirrors_throw _
  | some records =>
      have hrecords := hlayout.segments records (List.mem_of_find?_eq_some hfound)
      exact (mirrors_readStrings horigin hlayout hrecords intern).bind fun _ =>
        (mirrors_readRows horigin hlayout hrecords).bind fun _ =>
          (mirrors_readKeys horigin hlayout).bind fun _ =>
            (mirrors_readCopies horigin hlayout).bind fun _ =>
              (mirrors_readRelationships horigin hlayout).bind fun _ => mirrors_pure _

end

theorem nextRow?_eq {rows : RowCursor} (hrows : rows.IsBounded) :
    nextRow? rows = pure rows.next? := by
  cases rows with
  | fixed start stride count next =>
      obtain ⟨hcount, _, hstop⟩ := hrows
      rw [nextRow?, RowCursor.next?]
      split
      case isFalse => rfl
      case isTrue hleft =>
          have hmul : next * stride ≤ count * stride :=
            Nat.mul_le_mul_right _ (Nat.le_of_lt hleft)
          rw [Checked.mul_of_lt (by omega), pure_bind, Checked.add_of_lt (by omega), pure_bind,
            Checked.add_of_lt (by omega), pure_bind]
  | located locations next =>
      cases locations with
      | nil => rfl
      | cons l locations =>
          have hleft : next + (locations.length + 1) < wordLimit := hrows
          rw [nextRow?, Checked.add_of_lt (by omega), pure_bind]
          rfl

theorem rowValues_eq (mapping : Mapping) (c : RowContext) (key : Option UInt32) {length : Nat}
    (hlength : length < wordLimit) : rowValues mapping c key length = values mapping c key := by
  have hlimit : length * 8 < positionLimit := by
    rw [wordLimit] at hlength
    rw [positionLimit]
    omega
  have hlogged (decoded : List Value) :
      (do if c.isVariable then let _ ← Checked.mul positionLimit length 8
          return decoded : Guarded RowState (List Value)) = pure decoded := by
    split
    · rw [trap_bind (Checked.mul_of_lt hlimit)]
    · rfl
  unfold rowValues
  simp only [hlogged, bind_pure]

section

variable {m : Metadata} (hm : m.IsBounded) {shared : SharedTables} {s : Section}

include hm

theorem decodeRow_eq {mapping : Mapping} (hmapping : mapping.IsBounded) {row : Row}
    (hrow : row.IsBounded) {data : Bytes} (hlength : data.length = row.length) :
    decodeRow s m shared mapping row data = .ok (s.decodeRow m shared mapping row data) := by
  unfold decodeRow Section.decodeRow
  cases hkey : s.externalKey row.index with
  | error e => rfl
  | ok key =>
      have hsound : BitReader.IsSound row.offset (BitReader.ofBytes data) :=
        ⟨Nat.zero_le _, hlength ▸ hrow.length, hlength ▸ hrow.stop⟩
      obtain ⟨_, hrun, rfl, -⟩ := mirrors_values (c := s.context m shared row) hm.descriptors
        hmapping key _ _ ⟨(rfl : RowState.start data s.strings = _), hsound⟩
      dsimp only
      rw [rowValues_eq _ _ _ hrow.length, hrun]
      rfl

end

section

variable {source : Source} (horigin : source.origin = 0) {m : Metadata} (hm : m.IsBounded)
  {shared : SharedTables} {s : Section}

include horigin hm

/-- The bytes of a row are read into the buffer, from which they are then decoded. -/
theorem mirrors_readRow {row : Row} (hrow : row.IsBounded) :
    Stepwise.Mirrors (Holds source) Eq (readRow m shared s row)
      (s.readRow source m shared row) := by
  rintro d count ⟨rfl, rfl⟩
  unfold Section.readRow
  cases hmapping : m.mappings[s.index]? with
  | none =>
      unfold readRow
      rw [hmapping]
      exact ⟨_, d, rfl, rfl, rfl, rfl⟩
  | some mapping =>
      have hbounded := hm.mappings mapping (List.mem_of_getElem? hmapping)
      have hstart : row.offset + d.source.origin < positionLimit := by
        rw [horigin]
        exact Nat.lt_of_le_of_lt (Nat.le_add_right ..) hrow.stop
      rw [run_readRow_of_lt hmapping hstart]
      dsimp only
      rw [StateT.run_bind,
        show (d.source.readBlock row.offset row.length).run.run d.handedOut = _ from
          d.source.on_readBlock row.offset row.length d.handedOut]
      cases hblock : d.source.block row.offset row.length with
      | error e => exact ⟨_, _, rfl, rfl, rfl, rfl⟩
      | ok data =>
          obtain ⟨hlength, _⟩ := Source.block_eq_ok_iff.mp hblock
          rw [rowOutcome, decodeRow_eq hm hbounded hrow hlength]
          exact ⟨_, _, rfl, rfl, rfl, rfl⟩

def SameItem (x y : Option (Except Error Record) × Section) : Prop :=
  x = y ∧ y.2.IsBounded

theorem mirrors_nextRow (hs : s.IsBounded) :
    Stepwise.Mirrors (Holds source) SameItem (nextRow m shared s)
      (s.nextRow source m shared) := by
  unfold nextRow Section.nextRow
  rw [Stepwise.trap_bind (nextRow?_eq hs.rows)]
  cases hnext : s.rows.next? with
  | none => exact Stepwise.mirrors_pure ⟨rfl, hs.rows, hs.copies⟩
  | some found =>
      obtain ⟨row, rows⟩ := found
      obtain ⟨hrow, hrows⟩ := hs.rows.next? hnext
      refine (mirrors_readRow horigin hm hrow).bind ?_
      rintro result _ rfl
      exact Stepwise.mirrors_pure ⟨rfl, hrows, hs.copies⟩

/-- One step of a section, and what it keeps. -/
theorem mirrors_nextRecord (hs : s.IsBounded) :
    Stepwise.Mirrors (Holds source) SameItem (nextRecord m shared s)
      (s.next source m shared) := by
  unfold nextRecord Section.next
  rcases s.pending with _ | ⟨record, _ | ⟨key, keys⟩⟩
  · exact mirrors_nextRow horigin hm hs
  · exact mirrors_nextRow horigin hm hs
  · have hgiven : (s.duplicateKeys record).length - (keys.length + 1) + 1 < positionLimit := by
      have hle := s.length_duplicateKeys_le record
      have hcopies := hs.copies
      rw [positionLimit] at *
      omega
    dsimp only
    rw [Stepwise.trap_bind (Checked.add_of_lt hgiven)]
    exact Stepwise.mirrors_pure ⟨rfl, hs.rows, hs.copies⟩

end

end Machine

end ClientTable
