import ClientTable.Proofs.FixedRows
import ClientTable.Proofs.StoredSection

namespace ClientTable

open Attempt

/-- The contents of a file of several sections, in which the records have one size. -/
structure SectionedFile where
  /-- The header words that nothing else decides. -/
  base : Header
  fieldInfos : List FieldInfo
  storageInfos : List StorageInfo
  recordSize : UInt32
  pallet : Bytes
  common : Bytes
  sections : List StoredSection

namespace SectionedFile

def sharedPieces (f : SectionedFile) : List Layout.Piece :=
  [(.fieldInfo, f.fieldInfos.flatMap FieldInfo.bytes),
    (.fieldStorageInfo, f.storageInfos.flatMap StorageInfo.bytes),
    (.palletData, f.pallet),
    (.commonData, f.common)]

def headerEnd (f : SectionedFile) : Nat :=
  72 + 36 * f.sections.length

def sectionsStart (f : SectionedFile) : Nat :=
  f.headerEnd + (Layout.pieceBytes f.sharedPieces).length

def placed (f : SectionedFile) : List PlacedSection :=
  PlacedSection.chain 0 f.sectionsStart f.sections

def rowCount (f : SectionedFile) : Nat :=
  total (f.sections.map fun s => s.rows.length)

/-- The sizes of the blocks that the header declares besides. -/
def storageSizes (f : SectionedFile) : StorageSizes :=
  { StorageSizes.zero with
    bitpackedDataOffset := f.base.storageSizes.bitpackedDataOffset
    lookupColumnCount := f.base.storageSizes.lookupColumnCount
    fieldStorageInfoSize := UInt32.ofNat (f.storageInfos.flatMap StorageInfo.bytes).length
    palletDataSize := UInt32.ofNat f.pallet.length }

def words (f : SectionedFile) : Header :=
  { Header.basic .wdc2 (UInt32.ofNat f.rowCount) (UInt32.ofNat f.fieldInfos.length)
      f.recordSize f.base.stringTableSize with
    tableHash := f.base.tableHash
    layoutHash := f.base.layoutHash
    minIndex := f.base.minIndex
    maxIndex := f.base.maxIndex
    locale := f.base.locale
    flags := f.base.flags
    indexColumn := f.base.indexColumn
    totalFieldCount := UInt32.ofNat f.fieldInfos.length
    commonDataSize := UInt32.ofNat f.common.length
    storage := some f.storageSizes
    sections := f.placed.map PlacedSection.announcement }

def header (f : SectionedFile) : Header :=
  { f.words with headerEnd := f.headerEnd }

def headerBytes (f : SectionedFile) : Bytes :=
  Signature.wdc2.magic ++ (wordBytes f.words.recordCount ++ (wordBytes f.words.fieldCount ++
    (wordBytes f.words.recordSize ++ (wordBytes f.words.stringTableSize ++
      f.words.sectionedBytes))))

def bytes (f : SectionedFile) : Bytes :=
  f.headerBytes ++ (Layout.pieceBytes f.sharedPieces ++
    f.sections.flatMap StoredSection.bytes)

structure Fits (f : SectionedFile) : Prop where
  rows_ne : f.rowCount ≠ 0
  rows : f.rowCount < wordLimit
  fieldInfos : f.fieldInfos.length < wordLimit
  storageInfos : (f.storageInfos.flatMap StorageInfo.bytes).length < wordLimit
  pallet : f.pallet.length < wordLimit
  common : f.common.length < wordLimit
  sectionCount : f.sections.length < wordLimit
  sections : ∀ s ∈ f.sections, s.Fits f.recordSize
  starts : ∀ p ∈ f.placed, p.start < wordLimit
  flags : f.base.hasOffsetMap = false
  bytes : f.bytes.length < positionLimit

theorem length_sectionedBytes (f : SectionedFile) :
    f.words.sectionedBytes.length = 52 + 36 * f.sections.length := by
  have hsections : (f.words.sections.flatMap SectionHeader.bytes).length =
      36 * f.sections.length := by
    rw [length_flatMap_of_length SectionHeader.length_bytes, Nat.mul_comm]
    change 36 * (f.placed.map _).length = _
    rw [List.length_map, placed, PlacedSection.length_chain]
  simp only [Header.sectionedBytes, List.length_append, length_wordBytes, length_halfBytes,
    hsections]
  omega

theorem length_headerBytes (f : SectionedFile) : f.headerBytes.length = f.headerEnd := by
  simp only [headerBytes, List.length_append, length_wordBytes, Signature.length_magic,
    length_sectionedBytes, headerEnd]
  omega

theorem nodup_kinds (f : SectionedFile) : (f.sharedPieces.map Prod.fst).Nodup := by
  change [SegmentKind.fieldInfo, .fieldStorageInfo, .palletData, .commonData].Nodup
  decide

variable {f : SectionedFile}

namespace Fits

theorem announcedRecords_words (h : f.Fits) :
    Header.announcedRecords f.words.sections = f.words.recordCount.toNat := by
  have hannounced : f.words.sections.map (fun s => s.recordCount.toNat) =
      f.sections.map fun s => s.rows.length := by
    conv_rhs => rw [← PlacedSection.map_stored_chain 0 f.sectionsStart f.sections]
    change (f.placed.map _).map _ = (f.placed.map _).map _
    rw [List.map_map, List.map_map]
    refine List.map_congr_left fun p hp => ?_
    exact toNat_ofNat_of_lt (h.sections p.stored (PlacedSection.stored_mem hp)).rows
  unfold Header.announcedRecords
  rw [hannounced]
  exact (toNat_ofNat_of_lt h.rows).symm

theorem reads_parseStart (h : f.Fits) :
    Metadata.parseStart.Reads 0 f.headerBytes (.wdc2, some f.header) := by
  have hcount : f.words.sections.length < wordLimit := by
    change (f.placed.map _).length < _
    rw [List.length_map, placed, PlacedSection.length_chain]
    exact h.sectionCount
  have hextension : Parse.Reads (Header.basic .wdc2 f.words.recordCount f.words.fieldCount
      f.words.recordSize f.words.stringTableSize).parseExtension
      (0 + Signature.wdc2.magic.length + 16) f.words.sectionedBytes f.words :=
    Header.reads_parseSectioned hcount h.announcedRecords_words rfl _
  have hheader := Header.reads_parse (by rfl) (ofNat_ne_zero_of_lt h.rows_ne h.rows) hextension
  have hend : 0 + Signature.wdc2.magic.length + 16 + f.words.sectionedBytes.length =
      f.headerEnd := by
    rw [length_sectionedBytes, Signature.length_magic, headerEnd]
    omega
  rw [hend, Header.withTotalFieldCount_of_eq rfl] at hheader
  exact (Signature.reads_parse .wdc2 0).bind
    (hheader.bind_pure fun header => (Signature.wdc2, header))

theorem sharedRequests_header (h : f.Fits) :
    Layout.sharedRequests f.header = f.sharedPieces.map Layout.request := by
  have hfields : f.header.totalFieldCount.toNat * 4 =
      (f.fieldInfos.flatMap FieldInfo.bytes).length := by
    rw [length_flatMap_of_length FieldInfo.length_bytes]
    exact congrArg (· * 4) (toNat_ofNat_of_lt h.fieldInfos)
  have hinfos : f.header.storageSizes.fieldStorageInfoSize.toNat = _ :=
    toNat_ofNat_of_lt h.storageInfos
  have hpallet : f.header.storageSizes.palletDataSize.toNat = _ := toNat_ofNat_of_lt h.pallet
  have hcommon : f.header.commonDataSize.toNat = _ := toNat_ofNat_of_lt h.common
  unfold Layout.sharedRequests Layout.words Layout.sized sharedPieces
  simp only [hfields, hinfos, hpallet, hcommon, List.map_cons, List.map_nil, Layout.request]

end Fits

def layout (f : SectionedFile) : Layout :=
  ⟨Layout.backToBack f.headerEnd f.sharedPieces, f.placed.map PlacedSection.layout⟩

/-- What is known about the file before its records are looked at. All sections are fed alike. -/
def metadata (f : SectionedFile) (columns : List Descriptor) (schema : Schema)
    (mapping : Mapping) : Metadata :=
  ⟨.wdc2, some f.header, f.layout, columns, schema, f.placed.map fun _ => mapping⟩

theorem Fits.plan_header (h : f.Fits) : Layout.plan f.header = .ok f.layout := by
  have hlength := h.bytes
  rw [SectionedFile.bytes, List.length_append, List.length_append, length_headerBytes]
    at hlength
  have hshared : Layout.place f.header f.headerEnd (Layout.sharedRequests f.header) =
      .ok (Layout.backToBack f.headerEnd f.sharedPieces) := by
    rw [h.sharedRequests_header]
    exact Layout.place_pieces f.header (by omega)
  have hsections : Layout.planSections f.header 0 f.header.sections =
      .ok (f.placed.map PlacedSection.layout) := by
    refine PlacedSection.planSections_chain (h := f.header) h.flags h.sections h.starts ?_
    rw [sectionsStart]
    omega
  change (Layout.place f.header f.headerEnd (Layout.sharedRequests f.header) >>= fun shared =>
    Layout.planSections f.header 0 f.header.sections >>= fun sections => _) = _
  rw [hshared]
  change (Layout.planSections f.header 0 f.header.sections >>= fun sections => _) = _
  rw [hsections]
  rfl

theorem Fits.stop_lt (h : f.Fits) {p : PlacedSection} (hp : p ∈ f.placed) :
    p.start + p.stored.bytes.length < positionLimit := by
  have hend := PlacedSection.stop_le hp
  have hbytes := h.bytes
  rw [SectionedFile.bytes, List.length_append, List.length_append, length_headerBytes] at hbytes
  rw [sectionsStart] at hend
  omega

theorem getElem?_mappings {p : PlacedSection} (hp : p ∈ f.placed) (columns : List Descriptor)
    (schema : Schema) (mapping : Mapping) :
    (f.metadata columns schema mapping).mappings[p.index]? = some mapping := by
  have hindex : p.index < f.placed.length := by
    have hlt := PlacedSection.index_lt hp
    rwa [Nat.zero_add, ← PlacedSection.length_chain 0 f.sectionsStart] at hlt
  change (f.placed.map fun _ => mapping)[p.index]? = _
  rw [List.getElem?_map, List.getElem?_eq_getElem hindex]
  rfl

variable {source : Source}

theorem holds_behind (hholds : source.Holds 0 f.bytes) :
    source.Holds f.headerEnd (Layout.pieceBytes f.sharedPieces ++
      f.sections.flatMap StoredSection.bytes) := by
  have hright := Source.Holds.right hholds
  rwa [Nat.zero_add, f.length_headerBytes] at hright

theorem finds_shared (hholds : source.Holds 0 f.bytes) {kind : SegmentKind} {bytes : Bytes}
    (hmem : (kind, bytes) ∈ f.sharedPieces) :
    source.Finds (f.layout.findShared? kind) bytes :=
  Layout.finds_backToBack (holds_behind hholds).left f.nodup_kinds hmem

theorem holds_placed (hholds : source.Holds 0 f.bytes) :
    ∀ p ∈ f.placed, source.Holds p.start p.stored.bytes :=
  PlacedSection.holds_chain (holds_behind hholds).right

theorem gives_readAll (hholds : source.Holds 0 f.bytes) {columns : List Descriptor}
    (hcolumns : StorageInfo.descriptors f.fieldInfos 0 ⟨0, 0⟩ f.storageInfos = .ok columns)
    (hcheck : Descriptor.checkWidth f.header columns = .ok ()) (schema : Schema) :
    Gives (fun _ => True) (Descriptor.readAll source f.header f.layout schema) columns := by
  have hread : Gives (fun _ => True)
      (Descriptor.readColumns source f.header f.layout schema) columns :=
    Descriptor.gives_readColumns (by rfl) (finds_shared hholds (by simp [sharedPieces]))
      (finds_shared hholds (by simp [sharedPieces])) hcolumns schema
  have hrelated : Descriptor.hasRelationships f.layout = false := by
    refine List.any_eq_false.mpr fun layout hlayout => ?_
    obtain ⟨p, hp, rfl⟩ := List.mem_map.mp hlayout
    exact ne_true_of_eq_false
      (StoredSection.isSome_relationshipTable (holds_placed hholds p hp))
  refine hread.bind ?_
  rw [hrelated]
  exact (gives_pure columns).bind ((gives_lift hcheck).bind (gives_pure columns))

/-- Opening a file gives what has been written, if its columns make sense to the caller. -/
theorem gives_metadata (h : f.Fits) (hholds : source.Holds 0 f.bytes)
    {columns : List Descriptor} {schema : Schema} {mapping : Mapping}
    (hcolumns : StorageInfo.descriptors f.fieldInfos 0 ⟨0, 0⟩ f.storageInfos = .ok columns)
    (hcheck : Descriptor.checkWidth f.header columns = .ok ())
    (hmapping : ∀ s ∈ f.sections, Mapping.build schema columns f.base.indexColumn.toNat
      (Section.keyTable s.keys).isSome = .ok mapping) :
    Gives (fun _ => True) (Metadata.read source schema) (f.metadata columns schema mapping) := by
  have hmappings : Metadata.sectionMappings f.header f.layout columns schema =
      .ok (f.placed.map fun _ => mapping) := by
    change (f.placed.map PlacedSection.layout).mapM
      (Metadata.sectionMapping f.header columns schema) = _
    have hholds := holds_placed hholds
    have hstored : ∀ p ∈ f.placed, p.stored ∈ f.sections := fun p hp =>
      PlacedSection.stored_mem hp
    generalize f.placed = placed at hholds hstored
    induction placed with
    | nil => rfl
    | cons p placed ih =>
        have hfirst : Metadata.sectionMapping f.header columns schema p.layout = .ok mapping := by
          unfold Metadata.sectionMapping
          rw [PlacedSection.layout,
            StoredSection.isSome_indexTable (hholds p (List.mem_cons_self ..))]
          exact hmapping p.stored (hstored p (List.mem_cons_self ..))
        have hothers := ih (fun other hother => hholds other (List.mem_cons_of_mem _ hother))
          fun other hother => hstored other (List.mem_cons_of_mem _ hother)
        rw [List.map_cons, List.mapM_cons, hfirst]
        change ((placed.map PlacedSection.layout).mapM
          (Metadata.sectionMapping f.header columns schema) >>= fun others => _) = _
        rw [hothers]
        rfl
  refine (Source.Holds.left hholds |>.gives_parse h.reads_parseStart).bind ?_
  refine (gives_lift h.plan_header).bind ?_
  refine (gives_readAll hholds hcolumns hcheck schema).bind ?_
  exact (gives_lift hmappings).bind (gives_pure _)

theorem exists_shared (hholds : source.Holds 0 f.bytes) {columns : List Descriptor}
    (hcommon : ∀ d ∈ columns, d.isCommon = false) (schema : Schema) (mapping : Mapping) :
    ∃ shared, Gives (fun _ => True)
      (SharedTables.read source (f.metadata columns schema mapping)) shared := by
  have hvalues : CommonTable.columnsOfChunks f.common 0 columns = .ok [] :=
    CommonTable.columnsOfChunks_of_not_common f.common 0 hcommon
  have hpallet : source.Finds (f.layout.findShared? .palletData) f.pallet :=
    finds_shared hholds (by simp [sharedPieces])
  have hblock : source.Finds (f.layout.findShared? .commonData) f.common :=
    finds_shared hholds (by simp [sharedPieces])
  obtain ⟨shared, hread, _⟩ := SharedTables.exists_read (m := f.metadata columns schema mapping)
    rfl (by rfl) hpallet hblock hvalues
  exact ⟨shared, hread⟩

theorem gives_sections (h : f.Fits) (hholds : source.Holds 0 f.bytes) (intern : Bool) :
    List.Forall₂ (fun layout s =>
        Gives (fun _ => True) (Section.read source f.header layout intern) s)
      f.layout.sections (f.placed.map (PlacedSection.opened intern f.recordSize)) := by
  change List.Forall₂ _ (f.placed.map PlacedSection.layout) _
  refine List.forall₂_map_left_iff.mpr (List.forall₂_map_right_iff.mpr ?_)
  refine List.forall₂_same.mpr fun p hp => ?_
  have hfits := h.sections p.stored (PlacedSection.stored_mem hp)
  exact StoredSection.gives_section (h := f.header) hfits h.flags rfl (holds_placed hholds p hp)
    intern p.index

end SectionedFile

end ClientTable
