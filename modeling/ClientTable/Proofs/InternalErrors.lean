import ClientTable.Proofs.IndexKeys
import ClientTable.Proofs.PlannedLayout
import ClientTable.Proofs.RowFailures

namespace ClientTable

open Attempt

theorem Block.throwsOnly_entryCount (block : Block) (length entrySize : Nat) :
    ThrowsOnly Error.IsExternal (block.entryCount length entrySize) := by
  unfold entryCount
  split
  · exact throwsOnly_error rfl
  · exact throwsOnly_ok _

theorem KeyedWord.failsOnly_parse : FailsOnly Error.IsExternal KeyedWord.parse :=
  Parse.failsOnly_u32.bind fun _ => Parse.failsOnly_u32.bind fun _ => failsOnly_pure _

theorem RowLocation.throwsOnly_select (records : Segment) (recordCount : UInt32)
    (slots : List RowLocation) :
    ThrowsOnly Error.IsExternal (select records recordCount slots) := by
  unfold select
  dsimp only
  split
  · exact throwsOnly_error rfl
  · split
    · exact throwsOnly_ok _
    · exact throwsOnly_error rfl

section

variable (source : Source) (segment : Segment)

theorem RowLocation.failsOnly_readAll (records : Segment) (recordCount : UInt32) :
    FailsOnly Error.IsExternal (readAll source segment records recordCount) := by
  have hentry : FailsOnly Error.IsExternal parse :=
    Parse.failsOnly_u32.bind fun _ => Parse.failsOnly_u16.bind fun _ => failsOnly_pure _
  exact (failsOnly_lift (Block.throwsOnly_entryCount _ _ _)).bind fun count =>
    (source.failsOnly_readSegment segment).bind fun block =>
      (failsOnly_lift (Parse.throwsOnly_decode (Parse.failsOnly_many hentry count) block)).bind
        fun slots => failsOnly_lift (throwsOnly_select records recordCount slots)

theorem IndexTable.failsOnly_read (recordCount : UInt32) :
    FailsOnly Error.IsExternal (IndexTable.read source segment recordCount) := by
  refine (failsOnly_lift (Block.throwsOnly_entryCount _ _ _)).bind fun count => ?_
  split
  · exact failsOnly_throw_bind (by rfl) _
  · exact (source.failsOnly_readSegment segment).bind fun block =>
      (failsOnly_lift (Parse.throwsOnly_decode (Parse.failsOnly_many Parse.failsOnly_u32 count)
        block)).bind fun _ => failsOnly_pure _

theorem CopyTable.failsOnly_read : FailsOnly Error.IsExternal (CopyTable.read source segment) := by
  have hentry : FailsOnly Error.IsExternal Copy.parse :=
    Parse.failsOnly_u32.bind fun _ => Parse.failsOnly_u32.bind fun _ => failsOnly_pure _
  exact (failsOnly_lift (Block.throwsOnly_entryCount _ _ _)).bind fun count =>
    (source.failsOnly_readSegment segment).bind fun block =>
      (failsOnly_lift (Parse.throwsOnly_decode (Parse.failsOnly_many hentry count) block)).bind
        fun _ => failsOnly_pure _

theorem RelationshipTable.failsOnly_parseListed (length : Nat) :
    FailsOnly Error.IsExternal (parseListed length) := by
  refine Parse.failsOnly_u32.bind fun count => ?_
  iterate 2 refine Parse.failsOnly_u32.bind fun _ => ?_
  dsimp only
  split
  · exact failsOnly_throw_bind (by rfl) _
  · exact (Parse.failsOnly_many KeyedWord.failsOnly_parse _).bind fun _ => failsOnly_pure _

theorem RelationshipTable.failsOnly_read (signature : Signature) :
    FailsOnly Error.IsExternal (RelationshipTable.read source segment signature) := by
  have hslots (block : Bytes) :
      ThrowsOnly Error.IsExternal (Parse.decode (parseSlots segment.length) block) :=
    Parse.throwsOnly_decode ((Parse.failsOnly_many Parse.failsOnly_u32 _).bind
      fun _ => failsOnly_pure _) block
  refine (source.failsOnly_readSegment segment).bind fun block => ?_
  cases signature with
  | wdb5 => exact failsOnly_lift (hslots block)
  | wdb6 => exact failsOnly_lift (hslots block)
  | _ => exact failsOnly_lift (Parse.throwsOnly_decode (failsOnly_parseListed _) block)

end

namespace CommonTable

theorem failsOnly_parseColumns (column count : Nat) :
    FailsOnly Error.IsExternal (parseColumns column count) := by
  induction count generalizing column with
  | zero => exact failsOnly_pure []
  | succ count ih =>
      refine FailsOnly.bind ?_ fun first => (ih (column + 1)).bind fun others => failsOnly_pure _
      refine Parse.failsOnly_u32.bind fun size => Parse.failsOnly_u8.bind fun type => ?_
      dsimp only
      split
      · exact failsOnly_throw_bind (by rfl) _
      · exact (Parse.failsOnly_many KeyedWord.failsOnly_parse _).bind fun _ => failsOnly_pure _

theorem throwsOnly_columnOfChunk (block : Bytes) (column : Nat) (chunk : Chunk) :
    ThrowsOnly Error.IsExternal (columnOfChunk block column chunk) := by
  unfold columnOfChunk
  split
  · exact throwsOnly_error rfl
  · exact (Block.throwsOnly_entryCount _ _ _).bind fun count _ =>
      (Parse.throwsOnly_decode (Parse.failsOnly_many KeyedWord.failsOnly_parse count) _).bind
        fun _ _ => throwsOnly_ok _

theorem throwsOnly_columnsOfChunks (block : Bytes) (column : Nat)
    (descriptors : List Descriptor) :
    ThrowsOnly Error.IsExternal (columnsOfChunks block column descriptors) := by
  induction descriptors generalizing column with
  | nil => exact throwsOnly_ok []
  | cons d descriptors ih =>
      unfold columnsOfChunks
      split
      · exact (throwsOnly_columnOfChunk block column d.chunk).bind fun first _ =>
          (ih (column + 1)).bind fun others _ => throwsOnly_ok _
      · exact ih (column + 1)

theorem failsOnly_read (source : Source) (segment : Segment) (h : Header)
    (descriptors : List Descriptor) :
    FailsOnly Error.IsExternal (CommonTable.read source segment h descriptors) := by
  refine (source.failsOnly_readSegment segment).bind fun block => ?_
  dsimp only
  split
  · exact (failsOnly_lift (Parse.throwsOnly_decode (failsOnly_parseColumns _ _) block)).bind
      fun _ => failsOnly_pure _
  · exact (failsOnly_lift (throwsOnly_columnsOfChunks block 0 descriptors)).bind
      fun _ => failsOnly_pure _

end CommonTable

namespace SharedTables

theorem failsOnly_read (source : Source) (m : Metadata) :
    FailsOnly Error.IsExternal (SharedTables.read source m) := by
  unfold read
  cases m.header with
  | none => exact failsOnly_pure _
  | some h =>
      refine FailsOnly.bind ?_ fun pallet => FailsOnly.bind ?_ fun common => failsOnly_pure _
      · unfold readPallet
        cases m.layout.findShared? .palletData with
        | none => exact failsOnly_pure none
        | some segment =>
            exact ((source.failsOnly_readSegment segment).bind fun _ => failsOnly_pure _).bind
              fun _ => failsOnly_pure _
      · unfold readCommon
        cases m.layout.findShared? .commonData with
        | none => exact failsOnly_pure none
        | some segment =>
            exact (CommonTable.failsOnly_read source segment h m.descriptors).bind
              fun _ => failsOnly_pure _

theorem ensures_read_pallet (source : Source) {m : Metadata} {h : Header}
    (hheader : m.header = some h) : Ensures (SharedTables.read source m) fun shared =>
      shared.pallet = none → m.layout.findShared? .palletData = none := by
  unfold read
  rw [hheader]
  refine Ensures.bind (Q := fun pallet =>
    pallet = none → m.layout.findShared? .palletData = none) ?_ fun pallet hpallet =>
      ensures_bind fun common => ensures_pure hpallet
  unfold readPallet
  cases m.layout.findShared? .palletData with
  | none => exact ensures_pure fun _ => rfl
  | some segment => exact ensures_bind fun table => ensures_pure nofun

end SharedTables

namespace Section

variable {source : Source} {h : Header} {layout : SectionLayout}

theorem failsOnly_readStrings (source : Source) (layout : SectionLayout) (records : Segment)
    (intern : Bool) : FailsOnly Error.IsExternal (readStrings source layout records intern) := by
  unfold readStrings
  cases layout.find? .stringBlock with
  | none => exact failsOnly_pure _
  | some segment =>
      exact ((source.failsOnly_readSegment segment).bind fun _ => failsOnly_pure _).bind
        fun _ => failsOnly_pure _

theorem failsOnly_readRows (hcomplete : layout.IsComplete h) (records : Segment) :
    FailsOnly Error.IsExternal (readRows source h layout records) := by
  unfold readRows
  split
  case isTrue hmap =>
    obtain ⟨segment, hsegment⟩ := hcomplete.offsetMap hmap
    rw [hsegment]
    exact (RowLocation.failsOnly_readAll source segment records layout.recordCount).bind
      fun _ => failsOnly_pure _
  case isFalse => exact failsOnly_pure _

theorem failsOnly_readKeys (source : Source) (layout : SectionLayout) :
    FailsOnly Error.IsExternal (readKeys source layout) := by
  unfold readKeys
  cases layout.find? .indexTable with
  | none => exact failsOnly_pure none
  | some segment =>
      exact (IndexTable.failsOnly_read source segment layout.recordCount).bind
        fun _ => failsOnly_pure _

theorem failsOnly_readCopies (source : Source) (layout : SectionLayout) :
    FailsOnly Error.IsExternal (readCopies source layout) := by
  unfold readCopies
  cases layout.find? .copyTable with
  | none => exact failsOnly_pure _
  | some segment => exact CopyTable.failsOnly_read source segment

theorem failsOnly_readRelationships (source : Source) (h : Header) (layout : SectionLayout) :
    FailsOnly Error.IsExternal (readRelationships source h layout) := by
  unfold readRelationships
  cases layout.find? .relationshipTable with
  | none => exact failsOnly_pure none
  | some segment =>
      exact (RelationshipTable.failsOnly_read source segment h.signature).bind
        fun _ => failsOnly_pure _

theorem failsOnly_read (hcomplete : layout.IsComplete h) (intern : Bool) :
    FailsOnly Error.IsExternal (Section.read source h layout intern) := by
  obtain ⟨area, harea⟩ := hcomplete.area
  unfold read
  rw [harea]
  exact (failsOnly_readStrings source layout area intern).bind fun _ =>
    (failsOnly_readRows hcomplete area).bind fun _ => (failsOnly_readKeys source layout).bind
      fun _ => (failsOnly_readCopies source layout).bind fun _ =>
        (failsOnly_readRelationships source h layout).bind fun _ => failsOnly_pure _

theorem ensures_readKeys_length (source : Source) (layout : SectionLayout) :
    Ensures (readKeys source layout) fun keys =>
      ∀ table, keys = some table → table.keys.length = layout.recordCount.toNat := by
  unfold readKeys
  cases layout.find? .indexTable with
  | none => exact ensures_pure nofun
  | some segment =>
      refine Ensures.bind
        (Q := fun table => table.keys.length = layout.recordCount.toNat) ?_ fun table htable =>
          ensures_pure ?_
      · refine ensures_bind fun count => ?_
        split
        case isTrue => exact ensures_throw_bind _ _
        case isFalse hcount =>
          refine ensures_bind fun block => Ensures.bind (Q := fun keys => keys.length = count)
            (ensures_lift fun _ => Parse.length_of_decode_many) fun keys hkeys => ensures_pure ?_
          exact hkeys.trans (Decidable.not_not.mp hcount)
      · rintro _ ⟨⟩
        exact htable

theorem ensures_read_keys_length (source : Source) (h : Header) (layout : SectionLayout)
    (intern : Bool) : Ensures (Section.read source h layout intern) fun s =>
      ∀ table, s.keys = some table → table.keys.length = layout.recordCount.toNat := by
  refine (ensures_read_putTogether source h layout intern).mono fun s ⟨area, hread⟩ => ?_
  exact hread.keys.of_ensures (ensures_readKeys_length source layout)

theorem ensures_read_isVariable (source : Source) (h : Header) (layout : SectionLayout)
    (intern : Bool) :
    Ensures (Section.read source h layout intern) fun s => s.isVariable = h.hasOffsetMap :=
  (ensures_read_putTogether source h layout intern).mono fun _ ⟨_, hread⟩ => hread.isVariable

variable {m : Metadata} {shared : SharedTables} {intern : Bool} {s : Section} {row : Row}
  {mapping : Mapping} {column : Nat} {e : Error}

/-- The index table of an open section has a key for each of its rows. -/
theorem exists_externalKey (hopens : (Section.read source h layout intern).outcome = .ok s)
    (hrow : row ∈ s.rows.rows) :
    ∃ external, s.externalKey row.index = .ok external ∧
      external.isSome = (layout.find? .indexTable).isSome := by
  have fresh := ensures_read source h layout intern 0 s hopens
  have hkeys := (ensures_read_keys source h layout intern 0 s hopens).2
  have hlength := ensures_read_keys_length source h layout intern 0 s hopens
  obtain ⟨i, hi⟩ := List.mem_iff_getElem?.mp hrow
  have hlt : row.index < layout.recordCount.toNat := by
    rw [fresh.index_row hi, ← fresh.length_rows]
    exact (List.getElem?_eq_some_iff.mp hi).1
  unfold externalKey
  rw [← hkeys]
  cases htable : s.keys with
  | none => exact ⟨none, rfl, rfl⟩
  | some table =>
      have hinside : row.index < table.keys.length := by
        rw [hlength table htable]
        exact hlt
      dsimp only
      rw [IndexTable.key?, List.getElem?_eq_getElem hinside]
      exact ⟨_, rfl, rfl⟩

/-- What a row of an open section can fail with. -/
theorem decoded_failure (hopens : (Section.read source h layout intern).outcome = .ok s)
    (hrow : row ∈ s.rows.rows) (hmapping : m.mappings[layout.index]? = some mapping)
    (hfed : mapping.IsFed m.descriptors column (layout.find? .indexTable).isSome)
    (he : (s.decoded source m shared row).1 = .error e) :
    e.IsExternal ∨
      (e = .unsupported .palletWithoutBlock ∧ shared.pallet = none ∧
        mapping.UsesPallet m.descriptors) ∨
      (e = .unsupported .keyNotInline ∧ layout.find? .indexTable = none ∧
        h.hasOffsetMap = false ∧ ∃ data, source.block row.offset row.length = .ok data ∧
          mapping.LacksKey (s.context m shared row) column (.start data s.strings)) := by
  have fresh := ensures_read source h layout intern 0 s hopens
  have hindex := (ensures_read_keys source h layout intern 0 s hopens).1
  have hvariable := ensures_read_isVariable source h layout intern 0 s hopens
  obtain ⟨external, hexternal, hsome⟩ := exists_externalKey hopens hrow
  unfold decoded at he
  rw [hindex, hmapping] at he
  dsimp only at he
  cases hblock : source.block row.offset row.length with
  | error fault =>
      rw [hblock] at he
      cases he
      exact Or.inl (source.throwsOnly_block row.offset row.length _ hblock)
  | ok data =>
      rw [hblock] at he
      dsimp only [decodeRow] at he
      rw [hexternal] at he
      dsimp only at he
      rcases hvalues : (mapping.values (s.context m shared row) external).on
        (.start data s.strings) with ⟨_ | values, t⟩
      · rw [hvalues] at he
        cases he
        rw [← hsome] at hfed
        rcases Mapping.values_failure (c := s.context m shared row) hfed
          (s := .start data s.strings) fresh.strings (congrArg Prod.fst hvalues) with
          he | hpallet | ⟨he, hnone, hfixed, hlacks⟩
        · exact Or.inl he
        · exact Or.inr (Or.inl hpallet)
        · refine Or.inr (Or.inr ⟨he, ?_, hvariable.symm.trans hfixed, data, rfl, hlacks⟩)
          rw [hnone] at hsome
          exact Option.isNone_iff_eq_none.mp (Option.isSome_eq_false_iff.mp hsome.symm)
      · rw [hvalues] at he
        cases he

/-- The copies of a record never fail. -/
theorem error_mem_rowItems (he : .error e ∈ s.rowItems source m shared row) :
    (s.decoded source m shared row).1 = .error e := by
  unfold rowItems at he
  cases hdecoded : (s.decoded source m shared row).1 with
  | error fault =>
      rw [hdecoded] at he
      cases List.mem_singleton.mp he
      rfl
  | ok base =>
      rw [hdecoded] at he
      rcases List.mem_cons.mp he with he | he
      · cases he
      · obtain ⟨key, hkey, hcopy⟩ := List.mem_map.mp he
        cases hbase : base.key? with
        | none =>
            rw [duplicateKeys, hbase] at hkey
            cases hkey
        | some own =>
            obtain ⟨_, _, _, _, hok⟩ := Record.withKey_of_key? hbase key
            rw [hok] at hcopy
            cases hcopy

end Section

theorem mem_of_mem_untilError {items : List Item} {item : Item} (h : item ∈ untilError items) :
    item ∈ items := by
  induction items with
  | nil => cases h
  | cons first items ih =>
      cases first with
      | error e =>
          rw [List.mem_singleton.mp h]
          exact List.mem_cons_self ..
      | ok record =>
          rcases List.mem_cons.mp h with rfl | h
          · exact List.mem_cons_self ..
          · exact List.mem_cons_of_mem _ (ih h)

/-- An error comes from a section that does not open or from a row that does not decode. -/
theorem Records.exists_of_error_mem {r : Records} {e : Error} (he : .error e ∈ r.reference) :
    ∃ h layout, r.metadata.header = some h ∧ layout ∈ r.metadata.layout.sections ∧
      ((Section.read r.source h layout r.internStrings).outcome = .error e ∨
        ∃ s row, (Section.read r.source h layout r.internStrings).outcome = .ok s ∧
          row ∈ s.rows.rows ∧ (s.decoded r.source r.metadata r.shared row).1 = .error e) := by
  have hitem := mem_of_mem_untilError he
  unfold itemsOf at hitem
  cases hheader : r.metadata.header with
  | none =>
      rw [hheader] at hitem
      cases hitem
  | some h =>
      rw [hheader] at hitem
      obtain ⟨layout, hlayout, hitem⟩ := List.mem_flatMap.mp hitem
      refine ⟨h, layout, rfl, hlayout, ?_⟩
      unfold sectionItems at hitem
      cases hopens : (Section.read r.source h layout r.internStrings).outcome with
      | error fault =>
          rw [hopens] at hitem
          cases List.mem_singleton.mp hitem
          exact Or.inl rfl
      | ok s =>
          rw [hopens] at hitem
          obtain ⟨row, hrow, hitem⟩ := List.mem_flatMap.mp hitem
          exact Or.inr ⟨s, row, rfl, hrow, Section.error_mem_rowItems hitem⟩

namespace Reader

/-- A row of a section of a file, and how the schema is fed in the section. -/
structure HasRow (reader : Reader) (h : Header) (layout : SectionLayout) (s : Section) (row : Row)
    (mapping : Mapping) : Prop where
  isHeader : reader.metadata.header = some h
  isSection : layout ∈ reader.metadata.layout.sections
  opens : (Section.read reader.source h layout reader.options.internStrings).outcome = .ok s
  isRow : row ∈ s.rows.rows
  isMapping : reader.metadata.mappings[layout.index]? = some mapping

/-- No file makes opening it or going through its records fail with an internal error, but for two:
that a field is stored in a pallet block and the file has none, and that the common data of a record
needs a key that is not in an index table, has not been decoded and does not stand in the record as
it is. The records may be gone through again from any source, also one that holds another file. -/
theorem internal_errors (stream : Stream) (schema : Schema) (options : Options) (count : Nat) :
    (∀ e, ((ofStream stream schema options).on count).1 = .error e → e.isInternal = false) ∧
      ∀ reader, ((ofStream stream schema options).on count).1 = .ok reader →
        ∀ again : Reader, again.metadata = reader.metadata →
          (∀ count e, (again.records.on count).1 = .error e → e.isInternal = false) ∧
          ∀ count records, (again.records.on count).1 = .ok records →
            ∀ limit start e, some (.error e) ∈ ((Records.polls limit records).run start).1 →
              e.isInternal = true →
                ∃ h layout s row mapping, again.HasRow h layout s row mapping ∧
                  (s.decoded again.source again.metadata records.shared row).1 = .error e ∧
                  (e = .unsupported .palletWithoutBlock ∧
                      again.metadata.layout.findShared? .palletData = none ∧
                      mapping.UsesPallet again.metadata.descriptors ∨
                    e = .unsupported .keyNotInline ∧ layout.find? .indexTable = none ∧
                      h.hasOffsetMap = false ∧
                      ∃ data, again.source.block row.offset row.length = .ok data ∧
                        mapping.LacksKey (s.context again.metadata records.shared row)
                          h.indexColumn.toNat (.start data s.strings)) := by
  refine ⟨failsOnly_ofStream stream schema options count, ?_⟩
  intro reader hopen again hagain
  have hmapped : again.metadata.IsMapped schema :=
    hagain ▸ ensures_isMapped stream schema options count reader hopen
  have hcomplete : again.metadata.IsComplete := by
    have hensures : Ensures (ofStream stream schema options) fun reader =>
        reader.metadata.IsComplete :=
      ensures_bind fun source =>
        (Metadata.ensures_isComplete source schema).bind fun _ hm => ensures_pure hm
    exact hagain ▸ hensures count reader hopen
  have hrecordsFail : FailsOnly Error.IsExternal again.records :=
    (SharedTables.failsOnly_read again.source again.metadata).bind fun _ => failsOnly_pure _
  refine ⟨hrecordsFail, ?_⟩
  intro count records hrecords limit start e hpolled hinternal
  obtain ⟨fresh, hsource, hmetadata, hintern⟩ := Records.ensures_start again.source again.metadata
    again.options.internStrings count records hrecords
  have hshared := Records.shared_of_start hrecords
  rw [Records.run_polls fresh.sound, fresh.remaining_eq] at hpolled
  obtain ⟨i, _, hi⟩ := List.mem_map.mp hpolled
  obtain ⟨h, layout, hheader, hlayout, hcause⟩ :=
    Records.exists_of_error_mem (List.mem_of_getElem? hi)
  rw [hsource, hmetadata, hintern] at hcause
  rw [hmetadata] at hheader hlayout
  have hinternal : ¬ e.IsExternal := by
    unfold Error.IsExternal
    rw [hinternal]
    decide
  -- Either the section does not open, which is the fault of the file, or the row does not decode.
  rcases hcause with hfail | ⟨s, row, hopens, hrow, hdecoded⟩
  · exact absurd (Section.failsOnly_read (hcomplete h hheader layout hlayout)
      again.options.internStrings 0 e hfail) hinternal
  · obtain ⟨mapping, hmapping, hbuild⟩ := hmapped.2 h hheader layout hlayout
    refine ⟨h, layout, s, row, mapping, ⟨hheader, hlayout, hopens, hrow, hmapping⟩, hdecoded, ?_⟩
    rcases Section.decoded_failure hopens hrow hmapping (Mapping.isFed_of_build hbuild) hdecoded
      with he | ⟨he, hnone, hused⟩ | hkey
    · exact absurd he hinternal
    · refine Or.inl ⟨he, ?_, hused⟩
      exact SharedTables.ensures_read_pallet again.source hheader 0 records.shared hshared hnone
    · exact Or.inr hkey

/-- One record of one field, which is stored in the way that the number names. There is no pallet
block and no index table. -/
def oneField (code : UInt32) : Bytes :=
  wordFile .wdc1 [1, 1, 4, 0, 0, 0, 0, 0, 0, 0, 0, 1, 0, 0, 0, 0, 24, 0, 0, 0, 0, 7, 0x200000, 0,
    code, 0, 0, 0]

def firstPoll? (file : Bytes) (schema : Schema) : Option (List (Option Item)) := do
  let reader ← ((ofStream ⟨file, 0, none⟩ schema .default).on 0).1.toOption
  let records ← (reader.records.on 0).1.toOption
  return ((Records.polls 1 records).run 0).1

theorem exists_of_firstPoll {file : Bytes} {schema : Schema} {items : List (Option Item)}
    (h : firstPoll? file schema = some items) :
    ∃ reader records, ((ofStream ⟨file, 0, none⟩ schema .default).on 0).1 = .ok reader ∧
      (reader.records.on 0).1 = .ok records ∧ ((Records.polls 1 records).run 0).1 = items := by
  obtain ⟨reader, hreader, h⟩ := Option.bind_eq_some_iff.mp h
  obtain ⟨records, hrecords, h⟩ := Option.bind_eq_some_iff.mp h
  cases h
  exact ⟨reader, records, ok_of_toOption hreader, ok_of_toOption hrecords, rfl⟩

theorem internal_errors_oneField :
    (∃ reader records, ((ofStream ⟨oneField 3, 0, none⟩ ⟨[.scalar "id" .u32]⟩ .default).on 0).1 =
        .ok reader ∧ (reader.records.on 0).1 = .ok records ∧
      ((Records.polls 1 records).run 0).1 = [some (.error (.unsupported .palletWithoutBlock))] ∧
      reader.metadata.layout.findShared? .palletData = none ∧
      ∃ h layout s row mapping, reader.HasRow h layout s row mapping ∧
        mapping.UsesPallet reader.metadata.descriptors) ∧
    ∃ reader records, ((ofStream ⟨oneField 2, 0, none⟩ ⟨[.scalar "id" .u32]⟩ .default).on 0).1 =
        .ok reader ∧ (reader.records.on 0).1 = .ok records ∧
      ((Records.polls 1 records).run 0).1 = [some (.error (.unsupported .keyNotInline))] ∧
      ∃ h layout s row mapping, reader.HasRow h layout s row mapping ∧
        layout.find? .indexTable = none ∧ h.hasOffsetMap = false ∧ mapping.needsKey = true ∧
        ∃ d, reader.metadata.descriptors[h.indexColumn.toNat]? = some d ∧ d.isInline = false := by
  have hpallet : firstPoll? (oneField 3) ⟨[.scalar "id" .u32]⟩ =
      some [some (.error (.unsupported .palletWithoutBlock))] := by
    decide +kernel
  have hkey : firstPoll? (oneField 2) ⟨[.scalar "id" .u32]⟩ =
      some [some (.error (.unsupported .keyNotInline))] := by
    decide +kernel
  constructor
  · obtain ⟨reader, records, hopen, hrecords, hpoll⟩ := exists_of_firstPoll hpallet
    refine ⟨reader, records, hopen, hrecords, hpoll, ?_⟩
    obtain ⟨_, hopened⟩ := internal_errors ⟨oneField 3, 0, none⟩ ⟨[.scalar "id" .u32]⟩ .default 0
    obtain ⟨h, layout, s, row, mapping, hrow, _, hcause⟩ := (hopened reader hopen reader rfl).2 0
      records hrecords 1 0 _ (hpoll ▸ List.mem_singleton_self _) rfl
    rcases hcause with ⟨_, habsent, hused⟩ | ⟨hother, _⟩
    · exact ⟨habsent, h, layout, s, row, mapping, hrow, hused⟩
    · cases hother
  · obtain ⟨reader, records, hopen, hrecords, hpoll⟩ := exists_of_firstPoll hkey
    refine ⟨reader, records, hopen, hrecords, hpoll, ?_⟩
    obtain ⟨_, hopened⟩ := internal_errors ⟨oneField 2, 0, none⟩ ⟨[.scalar "id" .u32]⟩ .default 0
    obtain ⟨h, layout, s, row, mapping, hrow, _, hcause⟩ := (hopened reader hopen reader rfl).2 0
      records hrecords 1 0 _ (hpoll ▸ List.mem_singleton_self _) rfl
    rcases hcause with ⟨hother, _⟩ | ⟨_, hunlisted, hfixed, _, _, hlacks⟩
    · cases hother
    · exact ⟨h, layout, s, row, mapping, hrow, hunlisted, hfixed, hlacks.needed, hlacks.elsewhere⟩

end Reader

end ClientTable
