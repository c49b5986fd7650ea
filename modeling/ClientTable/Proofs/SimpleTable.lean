import ClientTable.Proofs.FixedRows
import ClientTable.Proofs.SimpleRows
import ClientTable.Proofs.Tables

namespace ClientTable

open Attempt

/-- What a file has besides if it has a build number: more words in its header, and a block that is
passed over. -/
structure BuildPart where
  /-- The words in question are taken from this header. -/
  base : Header
  timestamp : UInt32
  lookup : Bytes

/-- The contents of a file that does not describe its fields. -/
structure SimpleTable where
  fieldCount : UInt32
  schema : Schema
  recordSize : UInt32
  rows : List SimpleRow
  strings : Bytes
  build : Option BuildPart

/-- A lowest and a highest id are given together with a block for the ids between them. -/
def BuildPart.Fits (b : BuildPart) : Prop :=
  b.base.maxIndex = 0 ∨ b.base.minIndex ≤ b.base.maxIndex ∧
    b.lookup.length = (b.base.maxIndex.toNat - b.base.minIndex.toNat + 1) * 6

instance : DecidablePred BuildPart.Fits :=
  fun b => inferInstanceAs (Decidable (b.base.maxIndex = 0 ∨ _ ∧ _))

def BuildPart.pieces (b : BuildPart) : List Layout.Piece :=
  if b.base.maxIndex = 0 then [] else [(.legacyLookup, b.lookup)]

namespace SimpleTable

def signature (t : SimpleTable) : Signature :=
  match t.build with
  | none => .wdbc
  | some _ => .wdb2

def pieces (t : SimpleTable) : List Layout.Piece :=
  t.build.toList.flatMap BuildPart.pieces ++
    [(.records, (t.rows.map SimpleRow.bytes).flatten), (.stringBlock, t.strings)]

def buildWords (t : SimpleTable) : Header :=
  match t.build with
  | none => .basic .wdbc 0 0 0 0
  | some b => b.base

def words (t : SimpleTable) : Header :=
  { Header.basic t.signature (UInt32.ofNat t.rows.length) t.fieldCount t.recordSize
      (UInt32.ofNat t.strings.length) with
    tableHash := t.buildWords.tableHash
    build := t.buildWords.build
    minIndex := t.buildWords.minIndex
    maxIndex := t.buildWords.maxIndex
    locale := t.buildWords.locale
    copyTableSize := t.buildWords.copyTableSize }

def extension (t : SimpleTable) : Bytes :=
  match t.build with
  | none => []
  | some b => b.base.buildBytes b.timestamp

def headerEnd (t : SimpleTable) : Nat :=
  20 + t.extension.length

def header (t : SimpleTable) : Header :=
  { t.words with
    totalFieldCount := t.words.withTotalFieldCount.totalFieldCount
    headerEnd := t.headerEnd }

def headerBytes (t : SimpleTable) : Bytes :=
  t.signature.magic ++ (wordBytes t.words.recordCount ++ (wordBytes t.words.fieldCount ++
    (wordBytes t.words.recordSize ++ (wordBytes t.words.stringTableSize ++ t.extension))))

def bytes (t : SimpleTable) : Bytes :=
  t.headerBytes ++ Layout.pieceBytes t.pieces

/-- The rows are rows of the schema, and the words that describe the file can hold what they have
to. -/
structure Fits (t : SimpleTable) : Prop where
  schema_ne : t.schema.fields ≠ []
  width : Field.widthOf t.schema.fields < wordLimit
  rows_ne : t.rows ≠ []
  rows : t.rows.length < wordLimit
  cells : ∀ row ∈ t.rows, List.Forall₂ (Field.Admits t.strings) t.schema.fields row.fields
  size : ∀ row ∈ t.rows, row.bytes.length = t.recordSize.toNat
  strings : t.strings.length < wordLimit
  build : ∀ b ∈ t.build, b.Fits
  bytes : t.bytes.length < positionLimit

def descriptors (t : SimpleTable) : List Descriptor :=
  Descriptor.consecutive 0 t.schema.fields

def mapping (t : SimpleTable) : Mapping :=
  ⟨Mapping.plansFrom 0 t.schema.fields t.descriptors, some 0, some 0⟩

def layout (t : SimpleTable) : Layout :=
  Layout.ofChain t.header (Layout.backToBack t.headerEnd t.pieces)

def onlySection (t : SimpleTable) : SectionLayout :=
  Layout.chainSection t.header (Layout.backToBack t.headerEnd t.pieces)

def metadata (t : SimpleTable) : Metadata :=
  ⟨t.signature, some t.header, t.layout, t.descriptors, t.schema, [t.mapping]⟩

def record (t : SimpleTable) (row : SimpleRow) : Record :=
  ⟨t.schema, row.values, 0⟩

theorem length_headerBytes (t : SimpleTable) : t.headerBytes.length = t.headerEnd := by
  simp only [headerBytes, List.length_append, length_wordBytes, Signature.length_magic, headerEnd]
  omega

theorem kinds_pieces (t : SimpleTable) :
    t.pieces.map Prod.fst = [.records, .stringBlock] ∨
      t.pieces.map Prod.fst = [.legacyLookup, .records, .stringBlock] := by
  unfold pieces
  cases t.build with
  | none => exact Or.inl rfl
  | some b =>
      change (b.pieces ++ [] ++ _).map _ = _ ∨ (b.pieces ++ [] ++ _).map _ = _
      unfold BuildPart.pieces
      split
      · exact Or.inl rfl
      · exact Or.inr rfl

theorem nodup_kinds (t : SimpleTable) : (t.pieces.map Prod.fst).Nodup := by
  rcases t.kinds_pieces with hkinds | hkinds
  · rw [hkinds]
    decide
  · rw [hkinds]
    decide

theorem not_mem_kinds (t : SimpleTable) {kind : SegmentKind}
    (h : kind ∉ [SegmentKind.legacyLookup, .records, .stringBlock]) :
    kind ∉ t.pieces.map Prod.fst := by
  rcases t.kinds_pieces with hkinds | hkinds
  · rw [hkinds]
    exact fun hmem => h (List.mem_cons_of_mem _ hmem)
  · rwa [hkinds]

variable {t : SimpleTable}

namespace Fits

theorem reads_extension (t : SimpleTable) (start : Nat) :
    Parse.Reads (Header.basic t.signature t.words.recordCount t.words.fieldCount
      t.words.recordSize t.words.stringTableSize).parseExtension start t.extension t.words := by
  unfold extension words signature buildWords
  cases t.build with
  | none => exact Parse.reads_pure _ _
  | some b => exact Header.reads_parseBuild b.timestamp _ b.base _

theorem reads_parseStart (h : t.Fits) :
    Metadata.parseStart.Reads 0 t.headerBytes (t.signature, some t.header) := by
  have hclient : t.signature.needsClientMetadata = false := by
    unfold signature
    cases t.build <;> rfl
  have hcount : t.words.recordCount ≠ 0 := by
    apply ofNat_ne_zero_of_lt _ h.rows
    intro hzero
    exact h.rows_ne (List.eq_nil_of_length_eq_zero hzero)
  have hextension := reads_extension t (0 + t.signature.magic.length + 16)
  have hheader := Header.reads_parse hclient hcount hextension
  have hend : 0 + t.signature.magic.length + 16 + t.extension.length = t.headerEnd := by
    rw [Signature.length_magic, headerEnd]
  rw [hend, Header.withTotalFieldCount_headerEnd] at hheader
  exact (Signature.reads_parse t.signature 0).bind
    (hheader.bind_pure fun header => (t.signature, header))

theorem length_rows (h : t.Fits) :
    (t.rows.map SimpleRow.bytes).flatten.length = t.rows.length * t.recordSize.toNat := by
  have hsize : ∀ row ∈ t.rows.map SimpleRow.bytes, row.length = t.recordSize.toNat := by
    intro data hdata
    obtain ⟨row, hrow, rfl⟩ := List.mem_map.mp hdata
    exact h.size row hrow
  rw [length_flatten_of_length hsize, List.length_map]

/-- The header asks for the blocks that are there. -/
theorem asks_header (h : t.Fits) :
    Layout.Asks t.header t.headerEnd (Layout.simpleRequests t.header) t.pieces := by
  have hrecords : t.header.recordCount.toNat * t.header.recordSize.toNat =
      (t.rows.map SimpleRow.bytes).flatten.length := by
    rw [h.length_rows]
    exact congrArg (· * t.recordSize.toNat) (toNat_ofNat_of_lt h.rows)
  have hstrings : t.header.stringTableSize.toNat = t.strings.length := toNat_ofNat_of_lt h.strings
  have hbehind (start : Nat) : Layout.Asks t.header start
      [(.records, .bytes (t.header.recordCount.toNat * t.header.recordSize.toNat)),
        Layout.sized .stringBlock t.header.stringTableSize]
      [(.records, (t.rows.map SimpleRow.bytes).flatten), (.stringBlock, t.strings)] := by
    rw [hrecords, Layout.sized, hstrings]
    exact ⟨rfl, rfl, rfl, rfl, trivial⟩
  have hids : t.header.minIndex = t.buildWords.minIndex ∧
      t.header.maxIndex = t.buildWords.maxIndex := ⟨rfl, rfl⟩
  have hsignature : t.header.signature = t.signature := rfl
  have hbuild := h.build
  unfold Layout.simpleRequests pieces
  rw [hsignature, hids.2]
  unfold signature buildWords at *
  cases hb : t.build with
  | none => exact hbehind _
  | some b =>
      simp only [hb] at hids
      rw [hb] at hbuild
      have hpieces : (some b).toList.flatMap BuildPart.pieces = b.pieces := List.append_nil _
      rw [hpieces, BuildPart.pieces]
      dsimp only
      by_cases hzero : b.base.maxIndex = 0
      · rw [if_neg (by simp [hzero]), if_pos hzero]
        exact hbehind _
      · obtain ⟨hle, hlength⟩ := (hbuild b rfl).resolve_left hzero
        have hcount : Extent.idCount t.header =
            .ok (b.base.maxIndex.toNat - b.base.minIndex.toNat + 1) := by
          unfold Extent.idCount
          rw [hids.1, hids.2, if_neg (UInt32.not_lt.mpr hle)]
          rfl
        rw [if_pos (by simp [hzero]), if_neg hzero]
        refine ⟨rfl, ?_, hbehind _⟩
        rw [hlength, Extent.length, hcount]
        rfl

theorem plan_header (h : t.Fits) : Layout.plan t.header = .ok t.layout := by
  have hlength : t.headerEnd + (Layout.pieceBytes t.pieces).length < positionLimit := by
    have hbytes := h.bytes
    rwa [SimpleTable.bytes, List.length_append, t.length_headerBytes] at hbytes
  have hplace := Layout.place_of_asks h.asks_header hlength
  have hplan : Layout.plan t.header = (do
      return Layout.ofChain t.header
        (← Layout.place t.header t.headerEnd (Layout.simpleRequests t.header))) := by
    have hsignature : t.header.signature = t.signature := rfl
    unfold Layout.plan
    rw [hsignature]
    unfold signature
    cases t.build <;> rfl
  rw [hplan, hplace]
  rfl

end Fits

variable {source : Source}

theorem holds_pieces (hholds : source.Holds 0 t.bytes) :
    source.Holds t.headerEnd (Layout.pieceBytes t.pieces) := by
  have hright := Source.Holds.right hholds
  rwa [t.length_headerBytes, Nat.zero_add] at hright

theorem find?_onlySection (t : SimpleTable) {kind : SegmentKind} (hshared : kind.isShared = false)
    (h : kind ∉ [SegmentKind.legacyLookup, .records, .stringBlock]) :
    t.onlySection.find? kind = none :=
  Layout.find?_chainSection_of_not_mem hshared (t.not_mem_kinds h)

theorem findShared?_layout (t : SimpleTable) {kind : SegmentKind} (hshared : kind.isShared = true)
    (h : kind ∉ [SegmentKind.legacyLookup, .records, .stringBlock]) :
    t.layout.findShared? kind = none :=
  Layout.findShared?_of_not_mem hshared (t.not_mem_kinds h)

namespace Fits

theorem checkWidth (h : t.Fits) : Descriptor.checkWidth t.header t.descriptors = .ok () := by
  obtain ⟨row, hrow⟩ := List.exists_mem_of_ne_nil _ h.rows_ne
  have hcells := SimpleRow.length_cellBytes (h.cells row hrow)
  have hsize := h.size row hrow
  rw [SimpleRow.bytes, List.length_append] at hsize
  have hrecord : t.header.recordBits = t.recordSize.toNat * 8 := rfl
  obtain ⟨hsum, hstop⟩ := Descriptor.bitStop_consecutive 0 t.schema.fields
  rw [Nat.zero_add] at hstop
  apply Descriptor.checkWidth_of_le
  · rw [descriptors, hsum, hrecord]
    omega
  · intro d hd _
    have hle := hstop d hd
    rw [hrecord]
    omega

theorem gives_readAll (h : t.Fits) :
    Gives (fun _ => True) (Descriptor.readAll source t.header t.layout t.schema)
      t.descriptors := by
  have hread : Gives (fun _ => True)
      (Descriptor.readColumns source t.header t.layout t.schema) t.descriptors := by
    have hsignature : t.header.signature = t.signature := rfl
    unfold Descriptor.readColumns
    rw [hsignature]
    unfold signature
    cases t.build <;> exact gives_pure _
  have hrelated : Descriptor.hasRelationships t.layout = false := by
    change ((t.onlySection.find? .relationshipTable).isSome || false) = false
    rw [t.find?_onlySection rfl (by decide)]
    rfl
  apply hread.bind
  rw [hrelated]
  exact (gives_pure t.descriptors).bind ((gives_lift h.checkWidth).bind (gives_pure _))

theorem build_mapping (h : t.Fits) :
    Mapping.build t.schema t.descriptors 0 false = .ok t.mapping := by
  have hfits : List.Forall₂ Mapping.Fits t.schema.fields t.descriptors :=
    Descriptor.fits_consecutive 0 t.schema.fields
  have hpositive : 0 < t.schema.fields.length := List.length_pos_iff.mpr h.schema_ne
  have hkey : (Mapping.plansFrom 0 t.schema.fields t.descriptors).findIdx?
      (FieldPlan.startsAt (0 + 0)) = some 0 := Mapping.findIdx?_plansFrom hfits hpositive
  have hbuild := Mapping.buildInline_of_fits hfits (hfits.length_eq ▸ hpositive)
  rw [hkey] at hbuild
  exact hbuild

theorem gives_metadata (h : t.Fits) (hholds : source.Holds 0 t.bytes) :
    Gives (fun _ => True) (Metadata.read source t.schema) t.metadata := by
  have hmappings : Metadata.sectionMappings t.header t.layout t.descriptors t.schema =
      .ok [t.mapping] := by
    change (Mapping.build t.schema t.descriptors 0
      (t.onlySection.find? .indexTable).isSome >>= fun mapping => _) = _
    rw [t.find?_onlySection rfl (by decide)]
    change (Mapping.build t.schema t.descriptors 0 false >>= fun mapping => _) = _
    rw [h.build_mapping]
    rfl
  apply (Source.Holds.left hholds |>.gives_parse h.reads_parseStart).bind
  apply (gives_lift h.plan_header).bind
  apply h.gives_readAll.bind
  exact (gives_lift hmappings).bind (gives_pure _)

end Fits

def opened (t : SimpleTable) (intern : Bool) (start stringBlockStart : Nat) : Section where
  index := 0
  rows := .fixed start t.recordSize.toNat t.rows.length 0
  isVariable := false
  hasRelativeStrings := false
  strings := .ofBytes t.strings intern
  stringBlockStart := stringBlockStart
  keys := none
  copies := .empty
  relationships := none
  pending := none

theorem gives_section (h : t.Fits) (hholds : source.Holds 0 t.bytes) (intern : Bool) :
    ∃ start stringBlockStart, source.Holds start (t.rows.map SimpleRow.bytes).flatten ∧
      Gives (fun _ => True) (Section.read source t.header t.onlySection intern)
        (t.opened intern start stringBlockStart) := by
  have hpieces := holds_pieces hholds
  obtain ⟨records, hfind, _, hrecords⟩ :=
    Layout.exists_records (h := t.header) hpieces t.nodup_kinds
      (by simp [pieces] : (SegmentKind.records, (t.rows.map SimpleRow.bytes).flatten) ∈ t.pieces)
  have hfind : t.onlySection.segments.find? (fun s => s.kind = .records) = some records := hfind
  have hrelative : t.header.signature.hasRelativeStrings = false := by
    change t.signature.hasRelativeStrings = false
    unfold signature
    cases t.build <;> rfl
  have hcount : t.onlySection.recordCount.toNat = t.rows.length := toNat_ofNat_of_lt h.rows
  have hstrings : source.Finds (t.onlySection.find? .stringBlock) t.strings :=
    Layout.finds_chainSection hpieces t.nodup_kinds rfl (by simp [pieces])
  have hkeys : source.Finds (t.onlySection.find? .indexTable) (([] : List UInt32).flatMap
      wordBytes) := by
    rw [t.find?_onlySection rfl (by decide)]
    rfl
  have hcopies : source.Finds (t.onlySection.find? .copyTable) (([] : List Copy).flatMap
      Copy.bytes) := by
    rw [t.find?_onlySection rfl (by decide)]
    rfl
  have hflags : t.header.hasOffsetMap = false := by
    change HeaderFlags.none.hasOffsetMap = false
    decide
  have hread := Section.gives_read_of hfind (Section.gives_readRows_fixed hflags records) hstrings
    hkeys (fun hne => absurd rfl hne) hcopies
    (Section.gives_readRelationships_none (t.find?_onlySection rfl (by decide))) intern
  rw [hflags, hrelative, hcount] at hread
  exact ⟨records.start, _, hrecords, hread⟩

theorem decodeRow_opened (h : t.Fits) {row : SimpleRow} (hrow : row ∈ t.rows) (intern : Bool)
    (start stringBlockStart : Nat) (shared : SharedTables) (place : Row) :
    ((t.opened intern start stringBlockStart).decodeRow t.metadata shared t.mapping place
      row.bytes).1 = .ok (t.record row) := by
  have hcells := h.cells row hrow
  have hwidth : 8 * 0 + Field.widthOf t.schema.fields < wordLimit := by
    rw [Nat.zero_add]
    exact h.width
  have hdata : SimpleRow.cellBytes row.fields <+: row.bytes.drop 0 := List.prefix_append ..
  have hfields : List.Forall₂ (FieldPlan.Holds (RowState.Sound
      ((t.opened intern start stringBlockStart).context t.metadata shared place) row.bytes
      t.strings) ((t.opened intern start stringBlockStart).context t.metadata shared place) none
      none) t.mapping.fields (row.fields.map fun cells => cells.map SimpleCell.scalar) := by
    apply SimpleRow.holds_plans _ _ h.strings hcells _ hwidth hdata <;> rfl
  have hvalues := Mapping.gives_values_of_not_needsKey hfields (SimpleRow.shapes_plans hcells 0 0)
    (Mapping.needsKey_eq_false
      (Mapping.any_isCommon_of_mem_plansFrom Descriptor.isCommon_consecutive))
  rw [List.map_map] at hvalues
  exact Section.decodeRow_of_values rfl
    (hvalues _ (RowState.sound_start _ _ (StringTable.keeps_ofBytes t.strings intern))).1

/-- The rows of the section decode to the records that have been written. -/
theorem decoded_opened (h : t.Fits) {start : Nat}
    (hrows : source.Holds start (t.rows.map SimpleRow.bytes).flatten) (intern : Bool)
    (stringBlockStart : Nat) (shared : SharedTables) :
    List.Forall₂ (fun place record => ((t.opened intern start stringBlockStart).decoded source
        t.metadata shared place).1 = .ok record)
      (t.opened intern start stringBlockStart).rows.rows (t.rows.map t.record) := by
  have hsize : ∀ data ∈ t.rows.map SimpleRow.bytes, data.length = t.recordSize.toNat := by
    intro data hdata
    obtain ⟨row, hrow, rfl⟩ := List.mem_map.mp hdata
    exact h.size row hrow
  apply forall₂_range'_map rfl
  intro i row hrow
  have hdata : (t.rows.map SimpleRow.bytes)[i]? = some row.bytes := by
    rw [List.getElem?_map, hrow, Option.map_some]
  have hblock := hrows.row hsize hdata
  rw [Nat.zero_add]
  have hmapping : t.metadata.mappings[(t.opened intern start stringBlockStart).index]? =
      some t.mapping := rfl
  rw [Section.decoded_of_block hmapping hblock]
  exact decodeRow_opened h (List.mem_of_getElem? hrow) intern start stringBlockStart shared _

/-- Opening the file of a table and going through its records gives its rows. -/
theorem session_rows (h : t.Fits) (options : Options) :
    Reader.session ⟨t.bytes, 0, none⟩ t.schema options =
      .ok (t.metadata, .ok ((t.rows.map t.record).map .ok)) := by
  obtain ⟨source, hsource, hholds⟩ := Source.exists_holds t.bytes options.copyToMemory
  have hshared : Gives (fun _ => True) (SharedTables.read source t.metadata) ⟨none, none⟩ :=
    SharedTables.gives_read_of_common rfl (t.findShared?_layout rfl (by decide))
      (SharedTables.gives_readCommon_none (t.findShared?_layout rfl (by decide)))
  obtain ⟨start, stringBlockStart, hrows, hsection⟩ :=
    gives_section h hholds options.internStrings
  apply Reader.session_eq_items hsource (h.gives_metadata hholds) hshared rfl
    (List.Forall₂.cons hsection List.Forall₂.nil)
  rw [List.flatMap_singleton]
  exact Section.flatMap_rowItems rfl
    (decoded_opened h hrows options.internStrings stringBlockStart ⟨none, none⟩)

/-- Two rows of numbers and texts, and a byte behind each that means nothing. -/
def weapons : SimpleTable where
  fieldCount := 4
  schema := .ofList [.scalar "id" .u32, .array "damage" .i16 2, .scalar "weight" .f32,
    .scalar "name" .text]
  recordSize := 17
  rows := [
    ⟨[[.number (.int ⟨.w32, false⟩ 7)],
      [.number (.int ⟨.w16, true⟩ 0xFFFE), .number (.int ⟨.w16, true⟩ 3)],
      [.number (.f32 0x3FC00000)], [.text "né" 1]], [0xEE]⟩,
    ⟨[[.number (.int ⟨.w32, false⟩ 8)],
      [.number (.int ⟨.w16, true⟩ 0), .number (.int ⟨.w16, true⟩ 0x8000)],
      [.number (.f32 0x7FC00001)], [.text "" 0]], [0x01]⟩]
  strings := [0, 0x6E, 0xC3, 0xA9, 0]
  build := some ⟨{ Header.basic .wdb2 0 0 0 0 with minIndex := 7, maxIndex := 8 }, 0,
    List.replicate 12 0xAB⟩

theorem fits_weapons : weapons.Fits where
  schema_ne := by decide
  width := by decide
  rows_ne := List.cons_ne_nil _ _
  rows := by decide
  cells := by decide
  size := by decide
  strings := by decide
  build := by
    rintro _ ⟨⟩
    decide
  bytes := by decide

theorem session_weapons :
    (Reader.session ⟨weapons.bytes, 0, none⟩ weapons.schema .default).map
        (fun (session : _ × Except Error (List Item)) => session.2.map fun items =>
          items.map fun item => item.map Record.values) =
      .ok (.ok [
        .ok [.scalar (.int ⟨.w32, false⟩ 7),
          .array [.scalar (.int ⟨.w16, true⟩ 0xFFFE), .scalar (.int ⟨.w16, true⟩ 3)],
          .scalar (.f32 0x3FC00000), .scalar (.text "né")],
        .ok [.scalar (.int ⟨.w32, false⟩ 8),
          .array [.scalar (.int ⟨.w16, true⟩ 0), .scalar (.int ⟨.w16, true⟩ 0x8000)],
          .scalar (.f32 0x7FC00001), .scalar (.text "")]]) := by
  rw [session_rows fits_weapons .default]
  rfl

end SimpleTable

end ClientTable
