import ClientTable.Proofs.FixedRows
import ClientTable.Proofs.Tables

namespace ClientTable

/-- The contents of a file of one section, in which the records have one size. -/
structure StoredFile where
  /-- The header words that nothing else decides. -/
  base : Header
  fieldInfos : List FieldInfo
  storageInfos : List StorageInfo
  recordSize : UInt32
  rows : List Bytes
  strings : Bytes
  keys : List UInt32
  copies : List Copy
  pallet : Bytes
  common : Bytes
  related : Option RelationshipBlock

namespace StoredFile

/-- The relationship table, which takes up no bytes if there is none. -/
def relationships (f : StoredFile) : Bytes :=
  (f.related.map RelationshipBlock.bytes).getD []

def pieces (f : StoredFile) : List Layout.Piece :=
  [(.fieldInfo, f.fieldInfos.flatMap FieldInfo.bytes),
    (.records, f.rows.flatten),
    (.stringBlock, f.strings),
    (.indexTable, f.keys.flatMap wordBytes),
    (.copyTable, f.copies.flatMap Copy.bytes),
    (.fieldStorageInfo, f.storageInfos.flatMap StorageInfo.bytes),
    (.palletData, f.pallet),
    (.commonData, f.common),
    (.relationshipTable, f.relationships)]

def storageSizes (f : StoredFile) : StorageSizes :=
  { f.base.storageSizes with
    fieldStorageInfoSize := UInt32.ofNat (f.storageInfos.flatMap StorageInfo.bytes).length
    palletDataSize := UInt32.ofNat f.pallet.length
    idListSize := UInt32.ofNat (f.keys.flatMap wordBytes).length
    relationshipDataSize := UInt32.ofNat f.relationships.length }

def words (f : StoredFile) : Header :=
  { Header.basic .wdc1 (UInt32.ofNat f.rows.length) (UInt32.ofNat f.fieldInfos.length)
      f.recordSize (UInt32.ofNat f.strings.length) with
    tableHash := f.base.tableHash
    layoutHash := f.base.layoutHash
    minIndex := f.base.minIndex
    maxIndex := f.base.maxIndex
    locale := f.base.locale
    copyTableSize := UInt32.ofNat (f.copies.flatMap Copy.bytes).length
    flags := f.base.flags
    indexColumn := f.base.indexColumn
    totalFieldCount := f.base.totalFieldCount
    commonDataSize := UInt32.ofNat f.common.length
    storage := some f.storageSizes }

def header (f : StoredFile) : Header :=
  { f.words with
    totalFieldCount := f.words.withTotalFieldCount.totalFieldCount
    headerEnd := 84 }

def headerBytes (f : StoredFile) : Bytes :=
  Signature.wdc1.magic ++ (wordBytes f.words.recordCount ++ (wordBytes f.words.fieldCount ++
    (wordBytes f.words.recordSize ++ (wordBytes f.words.stringTableSize ++
      (f.words.flaggedBytes ++ f.words.storageSizesBytes)))))

def bytes (f : StoredFile) : Bytes :=
  f.headerBytes ++ Layout.pieceBytes f.pieces

structure Fits (f : StoredFile) : Prop where
  rows_ne : f.rows ≠ []
  rows : f.rows.length < wordLimit
  row : ∀ row ∈ f.rows, row.length = f.recordSize.toNat
  fieldInfos : f.fieldInfos.length < wordLimit
  strings : f.strings.length < wordLimit
  keys : (f.keys.flatMap wordBytes).length < wordLimit
  copies : (f.copies.flatMap Copy.bytes).length < wordLimit
  storageInfos : (f.storageInfos.flatMap StorageInfo.bytes).length < wordLimit
  pallet : f.pallet.length < wordLimit
  common : f.common.length < wordLimit
  relationships : f.relationships.length < wordLimit
  flags : f.base.hasOffsetMap = false
  bytes : f.bytes.length < positionLimit

theorem length_headerBytes (f : StoredFile) : f.headerBytes.length = 84 := by
  simp only [headerBytes, Header.flaggedBytes, Header.storageSizesBytes, List.length_append,
    length_wordBytes, length_halfBytes, Signature.length_magic]

theorem nodup_kinds (f : StoredFile) : (f.pieces.map Prod.fst).Nodup := by
  change [SegmentKind.fieldInfo, .records, .stringBlock, .indexTable, .copyTable,
    .fieldStorageInfo, .palletData, .commonData, .relationshipTable].Nodup
  decide

variable {f : StoredFile}

namespace Fits

theorem reads_parseStart (h : f.Fits) :
    Metadata.parseStart.Reads 0 f.headerBytes (.wdc1, some f.header) := by
  have hextension : Parse.Reads (Header.basic .wdc1 f.words.recordCount f.words.fieldCount
      f.words.recordSize f.words.stringTableSize).parseExtension
      (0 + Signature.wdc1.magic.length + 16) (f.words.flaggedBytes ++ f.words.storageSizesBytes)
      f.words :=
    (Header.reads_parseFlagged _ f.words _).bind (Header.reads_parseStorageSizes _ f.words _)
  have hcount : f.words.recordCount ≠ 0 := by
    refine ofNat_ne_zero_of_lt (fun hzero => ?_) h.rows
    exact h.rows_ne (List.eq_nil_of_length_eq_zero hzero)
  have hheader := Header.reads_parse (by rfl) hcount hextension
  have hend : 0 + Signature.wdc1.magic.length + 16 +
      (f.words.flaggedBytes ++ f.words.storageSizesBytes).length = 84 := by
    simp only [Header.flaggedBytes, Header.storageSizesBytes, List.length_append,
      length_wordBytes, length_halfBytes, Signature.length_magic]
  rw [hend, f.words.withTotalFieldCount_headerEnd] at hheader
  exact (Signature.reads_parse .wdc1 0).bind
    (hheader.bind_pure fun header => (Signature.wdc1, header))

theorem storedRequests_header (h : f.Fits) :
    Layout.storedRequests f.header = f.pieces.map Layout.request := by
  have hflags : f.header.hasOffsetMap = false := h.flags
  have hfields : f.header.fieldCount.toNat * 4 = (f.fieldInfos.flatMap FieldInfo.bytes).length := by
    rw [length_flatMap_of_length FieldInfo.length_bytes]
    exact congrArg (· * 4) (toNat_ofNat_of_lt h.fieldInfos)
  have hrecords : f.header.recordCount.toNat * f.header.recordSize.toNat =
      f.rows.flatten.length := by
    rw [length_flatten_of_length h.row]
    exact congrArg (· * f.recordSize.toNat) (toNat_ofNat_of_lt h.rows)
  have hstrings : f.header.stringTableSize.toNat = f.strings.length := toNat_ofNat_of_lt h.strings
  have hkeys : f.header.storageSizes.idListSize.toNat = _ := toNat_ofNat_of_lt h.keys
  have hcopies : f.header.copyTableSize.toNat = _ := toNat_ofNat_of_lt h.copies
  have hinfos : f.header.storageSizes.fieldStorageInfoSize.toNat = _ :=
    toNat_ofNat_of_lt h.storageInfos
  have hpallet : f.header.storageSizes.palletDataSize.toNat = _ := toNat_ofNat_of_lt h.pallet
  have hcommon : f.header.commonDataSize.toNat = _ := toNat_ofNat_of_lt h.common
  have hrelationships : f.header.storageSizes.relationshipDataSize.toNat = _ :=
    toNat_ofNat_of_lt h.relationships
  unfold Layout.storedRequests Layout.recordArea Layout.stringsOrOffsets Layout.words
    Layout.sized pieces
  simp only [hflags, hfields, hrecords, hstrings, hkeys, hcopies, hinfos, hpallet, hcommon,
    hrelationships, List.map_cons, List.map_nil, Layout.request, Bool.false_eq_true, if_false]

theorem plan_header (h : f.Fits) :
    Layout.plan f.header =
      .ok (Layout.ofChain f.header (Layout.backToBack 84 f.pieces)) := by
  have hlength : 84 + (Layout.pieceBytes f.pieces).length < positionLimit := by
    have hbytes := h.bytes
    rwa [StoredFile.bytes, List.length_append, f.length_headerBytes] at hbytes
  have hplace := Layout.place_pieces f.header hlength
  rw [← h.storedRequests_header] at hplace
  change (Layout.place f.header 84 (Layout.storedRequests f.header) >>= fun segments =>
    pure (Layout.ofChain f.header segments)) = _
  rw [hplace]
  rfl

end Fits

def layout (f : StoredFile) : Layout :=
  Layout.ofChain f.header (Layout.backToBack 84 f.pieces)

def onlySection (f : StoredFile) : SectionLayout :=
  Layout.chainSection f.header (Layout.backToBack 84 f.pieces)

def relationshipDescriptors (f : StoredFile) : List Descriptor :=
  f.related.toList.map fun _ => ⟨f.header.recordBits, 32, 1, .relationship⟩

theorem eq_of_mem_relationshipDescriptors {f : StoredFile} {d : Descriptor}
    (hd : d ∈ f.relationshipDescriptors) : d = ⟨f.header.recordBits, 32, 1, .relationship⟩ := by
  obtain ⟨_, _, rfl⟩ := List.mem_map.mp hd
  rfl

def metadata (f : StoredFile) (columns : List Descriptor) (schema : Schema) (mapping : Mapping) :
    Metadata :=
  ⟨.wdc1, some f.header, f.layout, columns ++ f.relationshipDescriptors, schema, [mapping]⟩

variable {source : Source}

theorem holds_pieces (hholds : source.Holds 0 f.bytes) :
    source.Holds 84 (Layout.pieceBytes f.pieces) := by
  have hright := Source.Holds.right hholds
  rwa [f.length_headerBytes] at hright

theorem finds_shared (hholds : source.Holds 0 f.bytes) {kind : SegmentKind} {bytes : Bytes}
    (hshared : kind.isShared = true) (hmem : (kind, bytes) ∈ f.pieces) :
    source.Finds (f.layout.findShared? kind) bytes :=
  Layout.finds_shared (holds_pieces hholds) f.nodup_kinds hshared hmem

theorem finds_own (hholds : source.Holds 0 f.bytes) {kind : SegmentKind} {bytes : Bytes}
    (hshared : kind.isShared = false) (hmem : (kind, bytes) ∈ f.pieces) :
    source.Finds (f.onlySection.find? kind) bytes :=
  Layout.finds_chainSection (holds_pieces hholds) f.nodup_kinds hshared hmem

theorem gives_readAll (hholds : source.Holds 0 f.bytes) {columns : List Descriptor}
    (hcolumns : StorageInfo.descriptors f.fieldInfos 0 ⟨0, 0⟩ f.storageInfos = .ok columns)
    (hwide : f.related.isSome = true → f.header.recordBits < wordLimit)
    (hcheck : Descriptor.checkWidth f.header (columns ++ f.relationshipDescriptors) = .ok ())
    (schema : Schema) :
    Attempt.Gives (fun _ => True) (Descriptor.readAll source f.header f.layout schema)
      (columns ++ f.relationshipDescriptors) := by
  have hread : Attempt.Gives (fun _ => True)
      (Descriptor.readColumns source f.header f.layout schema) columns :=
    Descriptor.gives_readColumns (by rfl) (finds_shared hholds rfl (by simp [pieces]))
      (finds_shared hholds rfl (by simp [pieces])) hcolumns schema
  have hfound : source.Finds (f.onlySection.find? .relationshipTable) f.relationships :=
    finds_own hholds rfl (by simp [pieces])
  have hrelated : Descriptor.hasRelationships f.layout =
      (f.onlySection.find? .relationshipTable).isSome := Bool.or_false _
  refine hread.bind ?_
  rw [hrelated, hfound.isSome_eq]
  unfold relationships relationshipDescriptors at *
  cases hcase : f.related with
  | none =>
      rw [hcase] at hcheck
      change Descriptor.checkWidth f.header (columns ++ []) = _ at hcheck
      change Attempt.Gives _ _ (columns ++ [])
      rw [List.append_nil] at hcheck ⊢
      exact (Attempt.gives_pure columns).bind
        ((Attempt.gives_lift hcheck).bind (Attempt.gives_pure columns))
  | some block =>
      rw [hcase] at hcheck hwide
      have hne : ((some block).map RelationshipBlock.bytes).getD [] ≠ [] := block.bytes_ne_nil
      have hcolumn := Descriptor.relationshipColumn_of_lt (hwide rfl)
      rw [decide_eq_true hne, if_pos rfl]
      exact (Attempt.gives_lift hcolumn).bind ((Attempt.gives_pure _).bind
        ((Attempt.gives_lift hcheck).bind (Attempt.gives_pure _)))

/-- Opening a file gives what has been written, if its columns make sense to the caller. -/
theorem gives_metadata (h : f.Fits) (hholds : source.Holds 0 f.bytes)
    {columns : List Descriptor} {schema : Schema} {mapping : Mapping}
    (hcolumns : StorageInfo.descriptors f.fieldInfos 0 ⟨0, 0⟩ f.storageInfos = .ok columns)
    (hwide : f.related.isSome = true → f.header.recordBits < wordLimit)
    (hcheck : Descriptor.checkWidth f.header (columns ++ f.relationshipDescriptors) = .ok ())
    (hmapping : Mapping.build schema (columns ++ f.relationshipDescriptors)
      f.base.indexColumn.toNat (Section.keyTable f.keys).isSome = .ok mapping) :
    Attempt.Gives (fun _ => True) (Metadata.read source schema)
      (f.metadata columns schema mapping) := by
  have hkeys : source.Finds (f.onlySection.find? .indexTable) (f.keys.flatMap wordBytes) :=
    finds_own hholds rfl (by simp [pieces])
  have htable := Section.isSome_keyTable hkeys
  have hmappings : Metadata.sectionMappings f.header f.layout
      (columns ++ f.relationshipDescriptors) schema = .ok [mapping] := by
    change (Mapping.build schema (columns ++ f.relationshipDescriptors) f.base.indexColumn.toNat
      (f.onlySection.find? .indexTable).isSome >>= fun mapping => _) = _
    rw [htable, hmapping]
    rfl
  refine (Source.Holds.left hholds |>.gives_parse h.reads_parseStart).bind ?_
  refine (Attempt.gives_lift h.plan_header).bind ?_
  refine (gives_readAll hholds hcolumns hwide hcheck schema).bind ?_
  exact (Attempt.gives_lift hmappings).bind (Attempt.gives_pure _)

theorem exists_shared (hholds : source.Holds 0 f.bytes) {columns : List Descriptor}
    (schema : Schema) (mapping : Mapping) {values : List CommonColumn}
    (hvalues : CommonTable.columnsOfChunks f.common 0
      (columns ++ f.relationshipDescriptors) = .ok values) :
    ∃ shared, Attempt.Gives (fun _ => True)
        (SharedTables.read source (f.metadata columns schema mapping)) shared ∧
      (shared.pallet = some ⟨f.pallet⟩ ∨ f.pallet = []) ∧
      (shared.common = some ⟨values⟩ ∨ shared.common = none ∧ f.common = []) := by
  have hpallet : source.Finds (f.layout.findShared? .palletData) f.pallet :=
    finds_shared hholds rfl (by simp [pieces])
  have hcommon : source.Finds (f.layout.findShared? .commonData) f.common :=
    finds_shared hholds rfl (by simp [pieces])
  exact SharedTables.exists_read (m := f.metadata columns schema mapping) rfl (by rfl) hpallet
    hcommon hvalues

def opened (f : StoredFile) (intern : Bool) (start stringBlockStart : Nat) : Section where
  index := 0
  rows := .fixed start f.recordSize.toNat f.rows.length 0
  isVariable := false
  hasRelativeStrings := false
  strings := .ofBytes f.strings intern
  stringBlockStart := stringBlockStart
  keys := Section.keyTable f.keys
  copies := ⟨f.copies⟩
  relationships := f.related.map fun block => ⟨block.entries⟩
  pending := none

theorem gives_section (h : f.Fits) (hholds : source.Holds 0 f.bytes)
    (hkeys : f.keys ≠ [] → f.keys.length = f.rows.length) (intern : Bool) :
    ∃ start stringBlockStart, source.Holds start f.rows.flatten ∧
      Attempt.Gives (fun _ => True) (Section.read source f.header f.onlySection intern)
        (f.opened intern start stringBlockStart) := by
  obtain ⟨records, hrecord, hlength, hrecords⟩ :=
    Layout.exists_records (h := f.header) (holds_pieces hholds) f.nodup_kinds
      (by simp [pieces] : (SegmentKind.records, f.rows.flatten) ∈ f.pieces)
  have hfind : f.onlySection.segments.find? (fun s => s.kind = .records) = some records := hrecord
  have hflags : f.header.hasOffsetMap = false := h.flags
  have hcount : f.onlySection.recordCount.toNat = f.rows.length := toNat_ofNat_of_lt h.rows
  have hentries : ∀ block, f.related = some block → block.entries.length < wordLimit := by
    intro block hblock
    have hfits := h.relationships
    unfold relationships at hfits
    rw [hblock] at hfits
    have hlength := block.length_bytes
    change block.bytes.length < wordLimit at hfits
    simp only [KeyedWord.entrySize, wordLimit] at hlength hfits ⊢
    omega
  have hstrings : source.Finds (f.onlySection.find? .stringBlock) f.strings :=
    finds_own hholds rfl (by simp [pieces])
  have hkeyTable : source.Finds (f.onlySection.find? .indexTable) (f.keys.flatMap wordBytes) :=
    finds_own hholds rfl (by simp [pieces])
  have hcopies : source.Finds (f.onlySection.find? .copyTable) (f.copies.flatMap Copy.bytes) :=
    finds_own hholds rfl (by simp [pieces])
  have hrelated : source.Finds (f.onlySection.find? .relationshipTable) f.relationships :=
    finds_own hholds rfl (by simp [pieces])
  have hkeyCount : f.keys ≠ [] → f.keys.length = f.onlySection.recordCount.toNat := by
    rwa [hcount]
  have hread := Section.gives_read hflags (by rfl) hfind hstrings hkeyTable hkeyCount hcopies
    hrelated hentries intern
  rw [hcount] at hread
  exact ⟨records.start, _, hrecords, hread⟩

end StoredFile

end ClientTable
