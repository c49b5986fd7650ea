import ClientTable.Proofs.FixedRows
import ClientTable.Proofs.InlineRows
import ClientTable.Proofs.Tables

namespace ClientTable

open Attempt

/-- A row with the cells before and behind the field of its key, and bytes that mean nothing. The
key is the one that the index table has, if there is an index table. -/
structure LocatedRow where
  before : List InlineCell
  key : UInt32
  after : List InlineCell
  padding : Bytes

namespace LocatedRow

def cells (row : LocatedRow) : List InlineCell :=
  row.before ++ row.after

def bytes (row : LocatedRow) : Bytes :=
  row.cells.flatMap InlineCell.bytes ++ row.padding

end LocatedRow

/-- The slot is for bytes of the area, which starts at a position of the file. -/
def RowLocation.Locates (start : Nat) (area : Bytes) (slot : RowLocation) (row : LocatedRow) :
    Prop :=
  start ≤ slot.offset.toNat ∧ slot.length.toNat = row.bytes.length ∧
    row.bytes <+: area.drop (slot.offset.toNat - start)

instance (start : Nat) (area : Bytes) (slot : RowLocation) :
    DecidablePred (slot.Locates start area) :=
  fun row => inferInstanceAs (Decidable (_ ∧ _ ∧ row.bytes <+: _))

/-- A table of fields that follow one another in its rows, around the one with the keys if these are
kept in an index table. -/
structure LocatedTable where
  /-- The header words that nothing else decides. -/
  base : Header
  /-- The common block, in a format that can have one. No column is kept in it. -/
  common : Option Bytes
  before : List InlineField
  /-- The name of the field that the index table feeds, if there is one. -/
  keyName : Option String
  after : List InlineField
  /-- The byte at which the first field is said to be. -/
  firstPosition : Nat
  rows : List LocatedRow
  /-- The bytes that the rows stand in. -/
  area : Bytes
  slots : List RowLocation

namespace LocatedTable

def signature (t : LocatedTable) : Signature :=
  match t.common with
  | none => .wdb5
  | some _ => .wdb6

def fields (t : LocatedTable) : List InlineField :=
  t.before ++ t.after

def keyFields (t : LocatedTable) : List Field :=
  t.keyName.toList.map fun name => .scalar name .u32

def schema (t : LocatedTable) : Schema :=
  ⟨t.before.map InlineField.toField ++ (t.keyFields ++ t.after.map InlineField.toField)⟩

def infos (t : LocatedTable) : List FieldInfo :=
  InlineField.infos t.firstPosition t.fields

def keys (t : LocatedTable) : List UInt32 :=
  t.keyName.toList.flatMap fun _ => t.rows.map LocatedRow.key

def commonBytes (t : LocatedTable) : Bytes :=
  t.common.getD []

def pieces (t : LocatedTable) : List Layout.Piece :=
  [(.fieldInfo, t.infos.flatMap FieldInfo.bytes), (.records, t.area),
    (.offsetMap, t.slots.flatMap RowLocation.bytes)] ++
  t.keyName.toList.map (fun _ => (.indexTable, t.keys.flatMap wordBytes)) ++
  [(.copyTable, [])] ++
  t.common.toList.map fun bytes => (.commonData, bytes)

def kinds (hasKeys hasCommon : Bool) : List SegmentKind :=
  [.fieldInfo, .records, .offsetMap] ++ (if hasKeys then [.indexTable] else []) ++ [.copyTable] ++
    if hasCommon then [.commonData] else []

def headerEnd (t : LocatedTable) : Nat :=
  match t.common with
  | none => 48
  | some _ => 56

def areaStart (t : LocatedTable) : Nat :=
  t.headerEnd + t.fields.length * 4

def totalFieldCount (t : LocatedTable) : UInt32 :=
  match t.common with
  | none => 0
  | some _ => t.base.totalFieldCount

def words (t : LocatedTable) : Header :=
  { Header.basic t.signature (UInt32.ofNat t.rows.length) (UInt32.ofNat t.fields.length)
      t.base.recordSize (UInt32.ofNat (t.areaStart + t.area.length)) with
    tableHash := t.base.tableHash
    layoutHash := t.base.layoutHash
    minIndex := t.base.minIndex
    maxIndex := t.base.maxIndex
    locale := t.base.locale
    flags := t.base.flags
    indexColumn := t.base.indexColumn
    totalFieldCount := t.totalFieldCount
    commonDataSize := UInt32.ofNat t.commonBytes.length }

def extension (t : LocatedTable) : Bytes :=
  t.words.flaggedBytes ++ t.common.toList.flatMap fun _ => t.words.commonSizeBytes

def header (t : LocatedTable) : Header :=
  { t.words with
    totalFieldCount := t.words.withTotalFieldCount.totalFieldCount
    headerEnd := t.headerEnd }

def headerBytes (t : LocatedTable) : Bytes :=
  t.signature.magic ++ (wordBytes t.words.recordCount ++ (wordBytes t.words.fieldCount ++
    (wordBytes t.words.recordSize ++ (wordBytes t.words.stringTableSize ++ t.extension))))

def bytes (t : LocatedTable) : Bytes :=
  t.headerBytes ++ Layout.pieceBytes t.pieces

/-- The rows are rows of the fields, the used slots are theirs, and the words that describe the file
can hold what they have to. -/
structure Fits (t : LocatedTable) : Prop where
  fields : t.fields.length < wordLimit
  near : InlineField.AllNear t.firstPosition t.fields
  rows_ne : t.rows ≠ []
  rows : t.rows.length < wordLimit
  before : ∀ row ∈ t.rows, List.Forall₂ InlineField.Admits t.before row.before
  after : ∀ row ∈ t.rows, List.Forall₂ InlineField.Admits t.after row.after
  located : List.Forall₂ (RowLocation.Locates t.areaStart t.area)
    (t.slots.filter RowLocation.isUsed) t.rows
  areaStop : t.areaStart + t.area.length < wordLimit
  ids : t.base.minIndex ≤ t.base.maxIndex
  slots : t.slots.length = t.base.maxIndex.toNat - t.base.minIndex.toNat + 1
  offsetMap : t.base.flags.hasOffsetMap = true
  noRelationships : t.base.flags.hasRelationships = false
  indexTable : t.base.flags.hasIndexTable = t.keyName.isSome
  keyColumn : t.keyName.isSome = true → t.base.indexColumn.toNat = t.before.length
  common : t.commonBytes.length < wordLimit
  noColumns : t.totalFieldCount.toNat ≤ t.fields.length
  /-- The common columns of a format that can have them are filed behind the record. -/
  recordSize : t.common.isSome = true → t.base.recordSize.toNat * 8 < wordLimit
  bytes : t.bytes.length < positionLimit

def descriptors (t : LocatedTable) : List Descriptor :=
  InlineField.descriptors t.firstPosition t.fields

/-- The field with the keys that the rows hold, if the file names one. -/
def inlineKey? (t : LocatedTable) : Option Nat :=
  if t.base.indexColumn.toNat < t.fields.length then some t.base.indexColumn.toNat else none

def mapping (t : LocatedTable) : Mapping :=
  match t.keyName with
  | none =>
      ⟨Mapping.plansFrom 0 (t.fields.map InlineField.toField) t.descriptors, t.inlineKey?,
        t.inlineKey?⟩
  | some _ =>
      ⟨Mapping.plansFrom 0 (t.before.map InlineField.toField)
          (InlineField.descriptors t.firstPosition t.before) ++
        ⟨.u32, false, .indexTable⟩ ::
          Mapping.plansFrom t.before.length (t.after.map InlineField.toField)
            (InlineField.descriptors (InlineField.stop t.firstPosition t.before) t.after),
        some t.before.length, none⟩

def layout (t : LocatedTable) : Layout :=
  Layout.ofChain t.header (Layout.backToBack t.headerEnd t.pieces)

def onlySection (t : LocatedTable) : SectionLayout :=
  Layout.chainSection t.header (Layout.backToBack t.headerEnd t.pieces)

def metadata (t : LocatedTable) : Metadata :=
  ⟨t.signature, some t.header, t.layout, t.descriptors, t.schema, [t.mapping]⟩

/-- The elements of a row, the key among them if it is kept in an index table. -/
def scalars (t : LocatedTable) (row : LocatedRow) : List Scalar :=
  row.before.map InlineCell.scalar ++
    (t.keyName.toList.map (fun _ => .int ⟨.w32, false⟩ row.key.toBitVec) ++
      row.after.map InlineCell.scalar)

def record (t : LocatedTable) (row : LocatedRow) : Record :=
  ⟨t.schema, (t.scalars row).map .scalar, t.mapping.keyField⟩

theorem length_extension (t : LocatedTable) : 20 + t.extension.length = t.headerEnd := by
  unfold extension headerEnd
  simp only [List.length_append, Header.flaggedBytes, length_wordBytes, length_halfBytes]
  cases t.common with
  | none => rfl
  | some bytes =>
      simp only [Option.toList_some, List.flatMap_singleton, Header.commonSizeBytes,
        List.length_append, length_wordBytes]

theorem length_headerBytes (t : LocatedTable) : t.headerBytes.length = t.headerEnd := by
  have hlength := t.length_extension
  simp only [headerBytes, List.length_append, length_wordBytes, Signature.length_magic]
  omega

theorem kinds_pieces (t : LocatedTable) :
    t.pieces.map Prod.fst = kinds t.keyName.isSome t.common.isSome := by
  unfold pieces
  cases t.keyName <;> cases t.common <;> rfl

theorem nodup_kinds (t : LocatedTable) : (t.pieces.map Prod.fst).Nodup := by
  have hnodup : ∀ hasKeys hasCommon, (kinds hasKeys hasCommon).Nodup := by decide
  rw [kinds_pieces]
  exact hnodup _ _

theorem not_mem_kinds (t : LocatedTable) {kind : SegmentKind} (h : kind ∉ kinds true true) :
    kind ∉ t.pieces.map Prod.fst := by
  have hsubset : ∀ hasKeys hasCommon, kinds hasKeys hasCommon ⊆ kinds true true := by decide
  rw [kinds_pieces]
  exact fun hmem => h (hsubset _ _ hmem)

variable {t : LocatedTable}

theorem length_infos (t : LocatedTable) :
    (t.infos.flatMap FieldInfo.bytes).length = t.fields.length * 4 := by
  rw [length_flatMap_of_length FieldInfo.length_bytes, infos, InlineField.length_infos]

namespace Fits

theorem reads_extension (t : LocatedTable) (start : Nat) :
    Parse.Reads (Header.basic t.signature t.words.recordCount t.words.fieldCount
      t.words.recordSize t.words.stringTableSize).parseExtension start t.extension t.words := by
  unfold extension words signature totalFieldCount commonBytes
  cases t.common with
  | none =>
      rw [Option.toList_none, List.flatMap_nil, List.append_nil]
      exact Header.reads_parseFlagged _ _ _
  | some bytes =>
      rw [Option.toList_some, List.flatMap_singleton]
      exact (Header.reads_parseFlagged _ _ _).bind (Header.reads_parseCommonSize _ _ _)

theorem reads_parseStart (h : t.Fits) :
    Metadata.parseStart.Reads 0 t.headerBytes (t.signature, some t.header) := by
  have hclient : t.signature.needsClientMetadata = false := by
    unfold signature
    cases t.common <;> rfl
  have hcount : t.words.recordCount ≠ 0 := by
    apply ofNat_ne_zero_of_lt _ h.rows
    intro hzero
    exact h.rows_ne (List.eq_nil_of_length_eq_zero hzero)
  have hextension := reads_extension t (0 + t.signature.magic.length + 16)
  have hheader := Header.reads_parse hclient hcount hextension
  have hend : 0 + t.signature.magic.length + 16 + t.extension.length = t.headerEnd := by
    rw [Signature.length_magic, ← t.length_extension]
  rw [hend, Header.withTotalFieldCount_headerEnd] at hheader
  exact (Signature.reads_parse t.signature 0).bind
    (hheader.bind_pure fun header => (t.signature, header))

/-- The header asks for the blocks that are there. -/
theorem asks_header (h : t.Fits) :
    Layout.Asks t.header t.headerEnd (Layout.flaggedRequests t.header) t.pieces := by
  have hflag : t.header.hasOffsetMap = true := h.offsetMap
  have hrelated : t.header.flags.hasRelationships = false := h.noRelationships
  have hindex : t.header.flags.hasIndexTable = t.keyName.isSome := h.indexTable
  have hfields : t.header.fieldCount.toNat * 4 = (t.infos.flatMap FieldInfo.bytes).length := by
    rw [t.length_infos]
    exact congrArg (· * 4) (toNat_ofNat_of_lt h.fields)
  have hrecords : Extent.length t.header (t.headerEnd + (t.infos.flatMap FieldInfo.bytes).length)
      (.upTo t.header.stringTableSize.toNat) = .ok t.area.length := by
    have hstop : t.header.stringTableSize.toNat = t.areaStart + t.area.length :=
      toNat_ofNat_of_lt h.areaStop
    rw [t.length_infos, hstop, Extent.length, areaStart, if_neg (by omega), Nat.add_sub_cancel_left]
    rfl
  have hslots (start : Nat) : Extent.length t.header start (.perId 6) =
      .ok (t.slots.flatMap RowLocation.bytes).length := by
    have hcount : Extent.idCount t.header = .ok t.slots.length := by
      rw [h.slots]
      unfold Extent.idCount
      exact if_neg (UInt32.not_lt.mpr h.ids)
    rw [length_flatMap_of_length RowLocation.length_bytes, Extent.length, hcount]
    rfl
  have hkeys (name : String) (hname : t.keyName = some name) :
      t.header.recordCount.toNat * 4 = (t.keys.flatMap wordBytes).length := by
    have hcount : t.header.recordCount.toNat = t.rows.length := toNat_ofNat_of_lt h.rows
    rw [length_flatMap_of_length length_wordBytes, keys, hname, hcount, Option.toList_some,
      List.flatMap_singleton, List.length_map]
  have hcommon : t.header.commonDataSize.toNat = t.commonBytes.length := toNat_ofNat_of_lt h.common
  have hsignature : t.header.signature = t.signature := rfl
  have hbehind (start : Nat) : Layout.Asks t.header start
      (Layout.sized .copyTable t.header.copyTableSize ::
        if t.header.signature = .wdb6 then [Layout.sized .commonData t.header.commonDataSize]
        else [])
      ((.copyTable, []) :: t.common.toList.map fun bytes => (.commonData, bytes)) := by
    rw [Layout.sized, Layout.sized, hcommon, hsignature]
    unfold signature commonBytes
    cases t.common with
    | none => exact ⟨rfl, rfl, trivial⟩
    | some bytes => exact ⟨rfl, rfl, rfl, rfl, trivial⟩
  unfold Layout.flaggedRequests Layout.recordArea Layout.stringsOrOffsets Layout.words pieces
  rw [hflag, hrelated, hindex, if_pos rfl, if_pos rfl, if_neg Bool.false_ne_true, hfields]
  refine ⟨rfl, rfl, rfl, hrecords, rfl, hslots _, ?_⟩
  cases hname : t.keyName with
  | none => exact hbehind _
  | some name =>
      rw [hkeys name hname]
      exact ⟨rfl, rfl, hbehind _⟩

theorem plan_header (h : t.Fits) : Layout.plan t.header = .ok t.layout := by
  have hlength : t.headerEnd + (Layout.pieceBytes t.pieces).length < positionLimit := by
    have hbytes := h.bytes
    rwa [LocatedTable.bytes, List.length_append, t.length_headerBytes] at hbytes
  have hplace := Layout.place_of_asks h.asks_header hlength
  have hplan : Layout.plan t.header = (do
      return Layout.ofChain t.header
        (← Layout.place t.header t.headerEnd (Layout.flaggedRequests t.header))) := by
    have hsignature : t.header.signature = t.signature := rfl
    unfold Layout.plan
    rw [hsignature]
    unfold signature
    cases t.common <;> rfl
  rw [hplan, hplace]
  rfl

end Fits

variable {source : Source}

theorem holds_pieces (hholds : source.Holds 0 t.bytes) :
    source.Holds t.headerEnd (Layout.pieceBytes t.pieces) := by
  have hright := Source.Holds.right hholds
  rwa [t.length_headerBytes, Nat.zero_add] at hright

theorem finds_shared (hholds : source.Holds 0 t.bytes) {kind : SegmentKind} {bytes : Bytes}
    (hshared : kind.isShared = true) (hmem : (kind, bytes) ∈ t.pieces) :
    source.Finds (t.layout.findShared? kind) bytes :=
  Layout.finds_shared (holds_pieces hholds) t.nodup_kinds hshared hmem

theorem find?_onlySection (t : LocatedTable) {kind : SegmentKind} (hshared : kind.isShared = false)
    (h : kind ∉ kinds true true) : t.onlySection.find? kind = none :=
  Layout.find?_chainSection_of_not_mem hshared (t.not_mem_kinds h)

theorem finds_keys (hholds : source.Holds 0 t.bytes) :
    source.Finds (t.onlySection.find? .indexTable) (t.keys.flatMap wordBytes) := by
  cases hname : t.keyName with
  | none =>
      have habsent : SegmentKind.indexTable ∉ t.pieces.map Prod.fst := by
        have hkinds : ∀ hasCommon, SegmentKind.indexTable ∉ kinds false hasCommon := by decide
        rw [kinds_pieces, hname]
        exact hkinds _
      rw [onlySection, Layout.find?_chainSection_of_not_mem rfl habsent, keys, hname]
      rfl
  | some name =>
      apply Layout.finds_chainSection (holds_pieces hholds) t.nodup_kinds rfl
      simp [pieces, hname]

theorem keyTable_keys (h : t.Fits) :
    Section.keyTable t.keys =
      t.keyName.map fun _ => ⟨t.rows.map LocatedRow.key⟩ := by
  unfold keys Section.keyTable
  cases t.keyName with
  | none => rfl
  | some name =>
      rw [Option.toList_some, List.flatMap_singleton, if_neg]
      · rfl
      · exact fun hnil => h.rows_ne (List.map_eq_nil_iff.mp hnil)

theorem isSome_keyTable (h : t.Fits) : (Section.keyTable t.keys).isSome = t.keyName.isSome := by
  rw [keyTable_keys h, Option.isSome_map]

theorem fits_fields (t : LocatedTable) :
    List.Forall₂ Mapping.Fits (t.fields.map InlineField.toField) t.descriptors :=
  InlineField.fits_descriptors t.firstPosition t.fields

theorem findIdx?_inlineKey (t : LocatedTable) :
    (Mapping.plansFrom 0 (t.fields.map InlineField.toField) t.descriptors).findIdx?
      (FieldPlan.startsAt t.base.indexColumn.toNat) = t.inlineKey? := by
  have hlength : (t.fields.map InlineField.toField).length = t.fields.length := List.length_map _
  rw [← Nat.zero_add t.base.indexColumn.toNat]
  unfold inlineKey?
  split
  · apply Mapping.findIdx?_plansFrom t.fits_fields
    omega
  · apply Mapping.findIdx?_plansFrom_eq_none t.fits_fields
    omega

theorem build_mapping (h : t.Fits) :
    Mapping.build t.schema t.descriptors t.base.indexColumn.toNat t.keyName.isSome =
      .ok t.mapping := by
  have hcolumn := h.keyColumn
  unfold mapping schema keyFields
  cases hname : t.keyName with
  | none =>
      have hschema : t.before.map InlineField.toField ++ t.after.map InlineField.toField =
          t.fields.map InlineField.toField := (List.map_append).symm
      have hlength : t.descriptors.length = t.fields.length :=
        InlineField.length_descriptors t.firstPosition t.fields
      change Mapping.buildInline ⟨t.before.map _ ++ t.after.map _⟩ t.descriptors _ = _
      rw [hschema, Mapping.buildInline_eq t.fits_fields, t.findIdx?_inlineKey, hlength]
      rfl
  | some name =>
      rw [hname] at hcolumn
      have hlength : t.before.length = (t.before.map InlineField.toField).length :=
        (List.length_map _).symm
      have hkind : (Field.scalar name .u32).kind ≠ .text := nofun
      have hbuild := Mapping.buildIndexed_of_fits
        (InlineField.fits_descriptors t.firstPosition t.before)
        (InlineField.fits_descriptors (InlineField.stop t.firstPosition t.before) t.after)
        hkind (by rfl)
      rw [← InlineField.descriptors_append, ← hlength] at hbuild
      rw [hcolumn rfl]
      exact hbuild

namespace Fits

theorem totalFieldCount_le (h : t.Fits) :
    t.header.totalFieldCount.toNat - t.header.fieldCount.toNat = 0 := by
  have hcount : t.header.fieldCount.toNat = t.fields.length := toNat_ofNat_of_lt h.fields
  have hle := h.noColumns
  have htotal : t.header.totalFieldCount = t.words.withTotalFieldCount.totalFieldCount := rfl
  have hwords : t.words.totalFieldCount = t.totalFieldCount := rfl
  have hfields : t.words.fieldCount = t.header.fieldCount := rfl
  rw [htotal, Header.withTotalFieldCount]
  split
  · rw [hfields, Nat.sub_self]
  · rw [hwords, hcount]
    omega

theorem gives_readAll (h : t.Fits) (hholds : source.Holds 0 t.bytes) :
    Gives (fun _ => True) (Descriptor.readAll source t.header t.layout t.schema)
      t.descriptors := by
  have hflag : t.header.hasOffsetMap = true := h.offsetMap
  have hmem : (SegmentKind.fieldInfo, t.infos.flatMap FieldInfo.bytes) ∈ t.pieces := by
    simp [pieces]
  have hinfos := Descriptor.gives_readFieldInfos (finds_shared hholds rfl hmem)
  have hcolumns : FieldInfo.descriptors t.header 0 t.infos = .ok t.descriptors :=
    InlineField.descriptors_infos hflag h.near
  have hcommon (hsome : t.common.isSome = true) :
      Descriptor.commonColumns t.header = .ok [] := by
    have hnarrow : t.header.recordBits < wordLimit := h.recordSize hsome
    rw [Descriptor.commonColumns_of_lt hnarrow, h.totalFieldCount_le]
    rfl
  have hread : Gives (fun _ => True)
      (Descriptor.readColumns source t.header t.layout t.schema) t.descriptors := by
    have hsignature : t.header.signature = t.signature := rfl
    unfold Descriptor.readColumns
    rw [hsignature]
    unfold signature
    cases hblock : t.common with
    | none => exact hinfos.bind (gives_lift hcolumns)
    | some bytes =>
        have hsome : t.common.isSome = true := by rw [hblock]; rfl
        apply hinfos.bind
        apply (gives_lift hcolumns).bind
        apply (gives_lift (hcommon hsome)).bind
        rw [List.append_nil]
        exact gives_pure _
  have hrelated : Descriptor.hasRelationships t.layout = false := by
    change ((t.onlySection.find? .relationshipTable).isSome || false) = false
    rw [t.find?_onlySection rfl (by decide)]
    rfl
  have hwidth : Descriptor.checkWidth t.header t.descriptors = .ok () := by
    unfold Descriptor.checkWidth
    rw [hflag]
    rfl
  apply hread.bind
  rw [hrelated]
  exact (gives_pure t.descriptors).bind ((gives_lift hwidth).bind (gives_pure _))

theorem gives_metadata (h : t.Fits) (hholds : source.Holds 0 t.bytes) :
    Gives (fun _ => True) (Metadata.read source t.schema) t.metadata := by
  have hkeys : (t.onlySection.find? .indexTable).isSome = t.keyName.isSome :=
    (Section.isSome_keyTable (finds_keys hholds)).trans (isSome_keyTable h)
  have hmappings : Metadata.sectionMappings t.header t.layout t.descriptors t.schema =
      .ok [t.mapping] := by
    change (Mapping.build t.schema t.descriptors t.base.indexColumn.toNat
      (t.onlySection.find? .indexTable).isSome >>= fun mapping => _) = _
    rw [hkeys, build_mapping h]
    rfl
  apply (Source.Holds.left hholds |>.gives_parse h.reads_parseStart).bind
  apply (gives_lift h.plan_header).bind
  apply (h.gives_readAll hholds).bind
  exact (gives_lift hmappings).bind (gives_pure _)

end Fits

/-- The common block has nothing to say about the fields. -/
theorem exists_shared (h : t.Fits) (hholds : source.Holds 0 t.bytes) :
    ∃ shared, Gives (fun _ => True) (SharedTables.read source t.metadata) shared := by
  have hpallet : t.layout.findShared? .palletData = none :=
    Layout.findShared?_of_not_mem rfl (t.not_mem_kinds (by decide))
  suffices hcommon : ∃ common, Gives (fun _ => True)
      (SharedTables.readCommon source t.metadata t.header) common by
    obtain ⟨common, hcommon⟩ := hcommon
    exact ⟨_, SharedTables.gives_read_of_common rfl hpallet hcommon⟩
  cases hblock : t.common with
  | none =>
      have hkinds : ∀ hasKeys, SegmentKind.commonData ∉ kinds hasKeys false := by decide
      have habsent : SegmentKind.commonData ∉ t.pieces.map Prod.fst := by
        rw [kinds_pieces, hblock]
        exact hkinds _
      exact ⟨none, SharedTables.gives_readCommon_none (Layout.findShared?_of_not_mem rfl habsent)⟩
  | some bytes =>
      have hsignature : t.header.signature = .wdb6 := by
        change t.signature = .wdb6
        rw [signature, hblock]
      have hmem : (SegmentKind.commonData, bytes) ∈ t.pieces := by simp [pieces, hblock]
      exact SharedTables.exists_readCommon hsignature h.totalFieldCount_le
        (finds_shared hholds rfl hmem)

def opened (t : LocatedTable) (intern : Bool) (stringBlockStart : Nat) : Section where
  index := 0
  rows := .located (t.slots.filter RowLocation.isUsed) 0
  isVariable := true
  hasRelativeStrings := false
  strings := .ofBytes [] intern
  stringBlockStart := stringBlockStart
  keys := Section.keyTable t.keys
  copies := .empty
  relationships := none
  pending := none

def records (t : LocatedTable) : Segment :=
  ⟨.records, t.areaStart, t.area.length⟩

theorem find?_records (t : LocatedTable) :
    t.onlySection.segments.find? (fun s => s.kind = .records) = some t.records := by
  unfold records areaStart
  rw [← t.length_infos]
  rfl

theorem holds_area (hholds : source.Holds 0 t.bytes) : source.Holds t.areaStart t.area := by
  have hpieces := (holds_pieces hholds).right.left
  rwa [t.length_infos] at hpieces

theorem isInside_of_locates {start : Nat} {area : Bytes} {slot : RowLocation} {row : LocatedRow}
    (hlocates : slot.Locates start area row) (hused : slot.isUsed = true) :
    slot.isInside ⟨.records, start, area.length⟩ = true := by
  obtain ⟨hstart, hlength, hbytes⟩ := hlocates
  have hle := hbytes.length_le
  rw [List.length_drop] at hle
  -- A row of no bytes could lie anywhere, but its slot would not count as used.
  have hpositive : slot.length.toNat ≠ 0 := by
    intro hzero
    have hword : slot.length = 0 := UInt16.toNat_inj.mp hzero
    simp [RowLocation.isUsed, hword] at hused
  have hstop : slot.stop ≤ start + area.length := by
    unfold RowLocation.stop
    omega
  unfold RowLocation.isInside
  rw [Bool.and_eq_true, decide_eq_true_eq, decide_eq_true_eq]
  exact ⟨hstart, hstop⟩

theorem select_slots (h : t.Fits) :
    RowLocation.select t.records (UInt32.ofNat t.rows.length)
      t.slots = .ok (t.slots.filter RowLocation.isUsed) := by
  have hstray : (t.slots.filter RowLocation.isUsed).find?
      (fun slot => !slot.isInside t.records) = none := by
    apply List.find?_eq_none.mpr
    intro slot hslot
    have hused := (List.mem_filter.mp hslot).2
    obtain ⟨i, hi, rfl⟩ := List.getElem_of_mem hslot
    have hlocates := h.located.get hi (h.located.length_eq ▸ hi)
    rw [List.get_eq_getElem] at hlocates
    rw [records, isInside_of_locates hlocates hused]
    exact Bool.false_ne_true
  have hcount : (t.slots.filter RowLocation.isUsed).length =
      (UInt32.ofNat t.rows.length).toNat := by
    rw [toNat_ofNat_of_lt h.rows]
    exact h.located.length_eq
  unfold RowLocation.select
  dsimp only
  rw [hstray]
  exact if_pos hcount

theorem gives_section (h : t.Fits) (hholds : source.Holds 0 t.bytes) (intern : Bool) :
    ∃ stringBlockStart,
      Gives (fun _ => True) (Section.read source t.header t.onlySection intern)
        (t.opened intern stringBlockStart) := by
  have hflag : t.header.hasOffsetMap = true := h.offsetMap
  have hrelative : t.header.signature.hasRelativeStrings = false := by
    change t.signature.hasRelativeStrings = false
    unfold signature
    cases t.common <;> rfl
  have hslots : source.Finds (t.onlySection.find? .offsetMap)
      (t.slots.flatMap RowLocation.bytes) :=
    Layout.finds_chainSection (holds_pieces hholds) t.nodup_kinds rfl (by simp [pieces])
  have hstrings : source.Finds (t.onlySection.find? .stringBlock) [] := by
    rw [t.find?_onlySection rfl (by decide)]
    rfl
  have hcopies : source.Finds (t.onlySection.find? .copyTable)
      (([] : List Copy).flatMap Copy.bytes) :=
    Layout.finds_chainSection (holds_pieces hholds) t.nodup_kinds rfl (by simp [pieces])
  have hne : t.slots ≠ [] := by
    intro hnil
    have hlength := h.slots
    rw [hnil, List.length_nil] at hlength
    omega
  have hkeys : t.keys ≠ [] → t.keys.length = t.onlySection.recordCount.toNat := by
    have hcount : t.onlySection.recordCount.toNat = t.rows.length := toNat_ofNat_of_lt h.rows
    rw [hcount]
    unfold keys
    cases t.keyName with
    | none => exact fun hnil => absurd rfl hnil
    | some name => simp
  have hread := Section.gives_read_of t.find?_records
    (Section.gives_readRows_located hflag hne hslots (select_slots h)) hstrings
    (finds_keys hholds) hkeys hcopies
    (Section.gives_readRelationships_none (t.find?_onlySection rfl (by decide))) intern
  rw [hflag, hrelative] at hread
  exact ⟨_, hread⟩

theorem block_of_locates {start : Nat} {area : Bytes} (harea : source.Holds start area)
    {slot : RowLocation} {row : LocatedRow} (hlocates : slot.Locates start area row) :
    source.block slot.offset.toNat slot.length.toNat = .ok row.bytes := by
  obtain ⟨hstart, hlength, hbytes⟩ := hlocates
  have hholds : source.Holds slot.offset.toNat row.bytes := by
    unfold Source.Holds
    rw [← Nat.add_sub_cancel' hstart, Source.suffix_add]
    exact hbytes.trans (harea.drop _)
  rw [hlength]
  exact hholds.block

/-- The elements of the row at an index with the bytes that they are taken from. -/
def parts (t : LocatedTable) (row : LocatedRow) : List (Bytes × Elements) :=
  row.before.map InlineField.part ++
    (t.keyName.toList.map (fun _ => ([], [some (.int ⟨.w32, false⟩ row.key.toBitVec)])) ++
      row.after.map InlineField.part)

theorem takes_fields (h : t.Fits) {row : LocatedRow} (hrow : row ∈ t.rows) {c : RowContext}
    (hvariable : c.isVariable = true) (hdescriptors : c.descriptors = t.descriptors) :
    List.Forall₂ (fun p part => (FieldPlan.bodyElements c (t.keyName.map fun _ => row.key) p).Takes
      part.1 part.2) t.mapping.fields (t.parts row) := by
  have hbefore := h.before row hrow
  have hafter := h.after row hrow
  have hsplit := InlineField.descriptors_append t.firstPosition t.before t.after
  have hlength := InlineField.length_descriptors t.firstPosition t.before
  unfold mapping parts
  cases t.keyName with
  | none =>
      have hall : c.descriptors.drop 0 = t.descriptors ++ [] := by
        rw [hdescriptors, List.append_nil]
        rfl
      rw [Option.toList_none, List.map_nil, List.nil_append, ← List.map_append]
      exact InlineField.takes_plans hvariable (List.rel_append hbefore hafter) hall
  | some name =>
      have hfirst : c.descriptors.drop 0 =
          InlineField.descriptors t.firstPosition t.before ++
            InlineField.descriptors (InlineField.stop t.firstPosition t.before) t.after :=
        hdescriptors.trans hsplit
      have hbehind : c.descriptors.drop t.before.length =
          InlineField.descriptors (InlineField.stop t.firstPosition t.before) t.after ++ [] := by
        rw [List.append_nil, hdescriptors, descriptors, fields, hsplit, ← hlength,
          List.drop_left]
      apply List.rel_append (InlineField.takes_plans hvariable hbefore hfirst)
      apply List.Forall₂.cons
      · exact (Decode.takes_lift (Scalar.ofWord_u32 row.key)).bind_nil (Decode.takes_pure _)
      · exact InlineField.takes_plans hvariable hafter hbehind

theorem isSingle_mapping (t : LocatedTable) : ∀ p ∈ t.mapping.fields, p.IsSingle := by
  have hplans (index position : Nat) (fields : List InlineField) :
      ∀ p ∈ Mapping.plansFrom index (fields.map InlineField.toField)
        (InlineField.descriptors position fields), p.IsSingle := by
    apply Mapping.isSingle_plansFrom _ InlineField.isCommon_descriptors
    intro f hf
    obtain ⟨_, _, rfl⟩ := List.mem_map.mp hf
    rfl
  unfold mapping
  cases t.keyName with
  | none => exact hplans _ _ _
  | some name =>
      intro p hp
      rcases List.mem_append.mp hp with hp | hp
      · exact hplans _ _ _ p hp
      · rcases List.mem_cons.mp hp with rfl | hp
        · exact ⟨rfl, rfl⟩
        · exact hplans _ _ _ p hp

theorem map_snd_parts (t : LocatedTable) (row : LocatedRow) :
    (t.parts row).map Prod.snd =
      ((t.scalars row).map fun s => [s]).map fun scalars => scalars.map some := by
  unfold parts scalars
  cases t.keyName <;> simp [InlineField.part, Function.comp_def]

theorem flatMap_fst_parts (t : LocatedTable) (row : LocatedRow) :
    (t.parts row).flatMap Prod.fst = row.cells.flatMap InlineCell.bytes := by
  unfold parts LocatedRow.cells
  cases t.keyName <;> simp [InlineField.part, List.flatMap_map]

theorem takes_values (h : t.Fits) {row : LocatedRow} (hrow : row ∈ t.rows) {c : RowContext}
    (hvariable : c.isVariable = true) (hdescriptors : c.descriptors = t.descriptors) :
    (t.mapping.values c (t.keyName.map fun _ => row.key)).Takes
      (row.cells.flatMap InlineCell.bytes) ((t.scalars row).map .scalar) := by
  have hfields := takes_fields h hrow hvariable hdescriptors
  have hlength : t.mapping.fields.length = (t.scalars row).length := by
    have hparts := congrArg List.length (t.map_snd_parts row)
    rw [List.length_map, List.length_map, List.length_map] at hparts
    exact hfields.length_eq.trans hparts
  have hvalues := Mapping.takes_values hfields (t.map_snd_parts row)
    (Mapping.shapes_of_isSingle hlength t.isSingle_mapping)
    (Mapping.needsKey_eq_false fun p hp => (t.isSingle_mapping p hp).2)
  rw [flatMap_fst_parts, List.map_map] at hvalues
  exact hvalues

theorem externalKey_opened (h : t.Fits) {i : Nat} {row : LocatedRow} (hrow : t.rows[i]? = some row)
    (intern : Bool) (stringBlockStart : Nat) :
    (t.opened intern stringBlockStart).externalKey i =
      .ok (t.keyName.map fun _ => row.key) := by
  have hkeys : (t.opened intern stringBlockStart).keys =
      t.keyName.map fun _ => ⟨t.rows.map LocatedRow.key⟩ := keyTable_keys h
  unfold Section.externalKey
  rw [hkeys]
  cases t.keyName with
  | none => rfl
  | some name =>
      have hkey : IndexTable.key? ⟨t.rows.map LocatedRow.key⟩ i = some row.key := by
        unfold IndexTable.key?
        rw [List.getElem?_map, hrow, Option.map_some]
      rw [Option.map_some]
      dsimp only
      rw [hkey]
      rfl

theorem decoded_row (h : t.Fits) (hholds : source.Holds 0 t.bytes) {i : Nat} {slot : RowLocation}
    {row : LocatedRow} (hrow : t.rows[i]? = some row)
    (hlocates : slot.Locates t.areaStart t.area row) (intern : Bool) (stringBlockStart : Nat)
    (shared : SharedTables) :
    ((t.opened intern stringBlockStart).decoded source t.metadata shared
      ⟨i, slot.offset.toNat, slot.length.toNat⟩).1 = .ok (t.record row) := by
  have hblock := block_of_locates (holds_area hholds) hlocates
  have htakes := takes_values h (List.mem_of_getElem? hrow)
    (c := (t.opened intern stringBlockStart).context t.metadata shared
      ⟨i, slot.offset.toNat, slot.length.toNat⟩) rfl rfl
  have hvalues := htakes row.bytes 0 none (.ofBytes [] intern) (List.prefix_append _ _)
  have hmapping : t.metadata.mappings[(t.opened intern stringBlockStart).index]? =
      some t.mapping := rfl
  rw [Section.decoded_of_block hmapping hblock]
  exact Section.decodeRow_of_values (externalKey_opened h hrow intern stringBlockStart)
    (congrArg Prod.fst hvalues)

theorem decoded_opened (h : t.Fits) (hholds : source.Holds 0 t.bytes) (intern : Bool)
    (stringBlockStart : Nat) (shared : SharedTables) :
    List.Forall₂ (fun place record =>
        ((t.opened intern stringBlockStart).decoded source t.metadata shared place).1 = .ok record)
      (t.opened intern stringBlockStart).rows.rows (t.rows.map t.record) := by
  apply forall₂_zipIdx_map h.located
  intro i slot row hlocates hrow
  rw [Nat.zero_add]
  exact decoded_row h hholds hrow hlocates intern stringBlockStart shared

theorem key?_record (h : t.Fits) (hname : t.keyName.isSome = true) {row : LocatedRow}
    (hrow : row ∈ t.rows) : (t.record row).key? = some row.key := by
  obtain ⟨name, hname⟩ := Option.isSome_iff_exists.mp hname
  have hlength : t.before.length = row.before.length := (h.before row hrow).length_eq
  have hfield : t.mapping.keyField = row.before.length := by
    rw [mapping, hname, ← hlength]
    rfl
  have hvalue : (t.record row).at? t.mapping.keyField =
      some (.scalar (.int ⟨.w32, false⟩ row.key.toBitVec)) := by
    change ((t.scalars row).map Value.scalar)[t.mapping.keyField]? = _
    rw [hfield, scalars, hname, List.getElem?_map, List.getElem?_append_right (by simp)]
    simp
  unfold Record.key?
  change ((t.record row).at? t.mapping.keyField).bind Value.toWord? = _
  rw [hvalue, Option.bind_some, Value.toWord?, Value.scalar?, Option.bind_some]
  exact Scalar.toWord?_u32 row.key

/-- Opening the file of a table and going through its records gives its rows, with the keys of the
index table if there is one. -/
theorem session_located (h : t.Fits) (options : Options) :
    Reader.session ⟨t.bytes, 0, none⟩ t.schema options =
        .ok (t.metadata, .ok ((t.rows.map t.record).map .ok)) ∧
      (t.keyName.isSome = true → ∀ row ∈ t.rows, (t.record row).key? = some row.key) := by
  constructor
  · obtain ⟨source, hsource, hholds⟩ := Source.exists_holds t.bytes options.copyToMemory
    obtain ⟨shared, hshared⟩ := exists_shared h hholds
    obtain ⟨stringBlockStart, hsection⟩ := gives_section h hholds options.internStrings
    apply Reader.session_eq_items hsource (h.gives_metadata hholds) hshared rfl
      (List.Forall₂.cons hsection List.Forall₂.nil)
    rw [List.flatMap_singleton]
    exact Section.flatMap_rowItems rfl
      (decoded_opened h hholds options.internStrings stringBlockStart shared)
  · exact fun hname row hrow => key?_record h hname hrow

/-- Three rows of which the first and the last are one. There are gaps between the rows, and slots
that no row has. -/
def potions : LocatedTable where
  base := { Header.basic .wdb6 0 0 17 0 with
    flags := ⟨0x05⟩
    indexColumn := 1
    minIndex := 5
    maxIndex := 9 }
  common := some [0xAA]
  before := [⟨"name", .text⟩]
  keyName := some "id"
  after := [⟨"level", .i16⟩, ⟨"weight", .f32⟩]
  firstPosition := 2
  rows := [
    ⟨[.text "né"], 5, [.number (.int ⟨.w16, true⟩ 0xFFFE), .number (.f32 0x3FC00000)], []⟩,
    ⟨[.text ""], 7, [.number (.int ⟨.w16, true⟩ 3), .number (.f32 0x7FC00001)], [0xEE]⟩,
    ⟨[.text "né"], 9, [.number (.int ⟨.w16, true⟩ 0xFFFE), .number (.f32 0x3FC00000)], []⟩]
  area := [0xAB, 0, 3, 0, 1, 0, 0xC0, 0x7F, 0xEE, 0xCD, 0xCD,
    0x6E, 0xC3, 0xA9, 0, 0xFE, 0xFF, 0, 0, 0xC0, 0x3F]
  slots := [⟨79, 10⟩, ⟨0, 10⟩, ⟨69, 8⟩, ⟨79, 0⟩, ⟨79, 10⟩]

theorem fits_potions : potions.Fits where
  fields := by decide
  near := by decide
  rows_ne := List.cons_ne_nil _ _
  rows := by decide
  before := by decide
  after := by decide
  located := by decide
  areaStop := by decide
  ids := by decide
  slots := by decide
  offsetMap := by decide
  noRelationships := by decide
  indexTable := by decide
  keyColumn := by decide
  common := by decide
  noColumns := by decide
  recordSize := by decide
  bytes := by decide +kernel

theorem session_potions :
    (Reader.session ⟨potions.bytes, 0, none⟩ potions.schema .default).map
        (fun (session : _ × Except Error (List Item)) => session.2.map fun items =>
          items.map fun item => item.map Record.values) =
      .ok (.ok [
        .ok [.scalar (.text "né"), .scalar (.int ⟨.w32, false⟩ 5),
          .scalar (.int ⟨.w16, true⟩ 0xFFFE), .scalar (.f32 0x3FC00000)],
        .ok [.scalar (.text ""), .scalar (.int ⟨.w32, false⟩ 7),
          .scalar (.int ⟨.w16, true⟩ 3), .scalar (.f32 0x7FC00001)],
        .ok [.scalar (.text "né"), .scalar (.int ⟨.w32, false⟩ 9),
          .scalar (.int ⟨.w16, true⟩ 0xFFFE), .scalar (.f32 0x3FC00000)]]) ∧
      ∀ row ∈ potions.rows, (potions.record row).key? = some row.key := by
  obtain ⟨hsession, hkeys⟩ := session_located fits_potions .default
  refine ⟨?_, hkeys rfl⟩
  rw [hsession]
  rfl

end LocatedTable

end ClientTable
