import ClientTable.Proofs.SectionedFile
import ClientTable.Proofs.WordRows

namespace ClientTable

open Attempt

/-- A row: its key, and the cells of the fields before and behind the key. -/
structure WordRow where
  before : List WordCell
  key : UInt32
  after : List WordCell

/-- The rows of one section with their strings and copies. -/
structure WordSection where
  tactKeyHash : UInt64
  rows : List WordRow
  strings : Bytes
  copies : List Copy

/-- A table of several sections. The keys stand in the index tables of the sections, or else in the
records. -/
structure SectionedTable where
  /-- The header words that nothing else decides. -/
  base : Header
  before : List WordField
  keyName : String
  after : List WordField
  hasIndexTables : Bool
  recordSize : UInt32
  pallet : Bytes
  common : Bytes
  sections : List WordSection

theorem le_total_of_mem {n : Nat} {numbers : List Nat} (h : n ∈ numbers) : n ≤ total numbers := by
  induction numbers with
  | nil => cases h
  | cons first numbers ih =>
      rw [total_cons]
      rcases List.mem_cons.mp h with rfl | hn
      · exact Nat.le_add_right ..
      · exact (ih hn).trans (Nat.le_add_left ..)

namespace SectionedTable

def keyField (t : SectionedTable) : WordField :=
  ⟨t.keyName, false⟩

def fields (t : SectionedTable) : List WordField :=
  t.before ++ t.keyField :: t.after

def schema (t : SectionedTable) : Schema :=
  ⟨t.fields.map WordField.toField⟩

def storedFields (t : SectionedTable) : List WordField :=
  if t.hasIndexTables then t.before ++ t.after else t.fields

def columns (t : SectionedTable) : List Column :=
  List.replicate t.storedFields.length (.plain 32 1)

def cells (row : WordRow) : List WordCell :=
  row.before ++ .number row.key :: row.after

def storedCells (t : SectionedTable) (row : WordRow) : List WordCell :=
  if t.hasIndexTables then row.before ++ row.after else cells row

/-- The bytes between the start of a section and its strings. -/
def stringsOffset (t : SectionedTable) (s : WordSection) : Nat :=
  s.rows.length * t.recordSize.toNat

def rowBytes (t : SectionedTable) (s : WordSection) (index : Nat) (row : WordRow) : Bytes :=
  BitField.bytes t.recordSize.toNat
    (WordCell.fields (t.stringsOffset s) (index * t.recordSize.toNat) (t.storedCells row))

def stored (t : SectionedTable) (s : WordSection) : StoredSection where
  tactKeyHash := s.tactKeyHash
  rows := s.rows.mapIdx (t.rowBytes s)
  strings := s.strings
  keys := if t.hasIndexTables then s.rows.map WordRow.key else []
  copies := s.copies

def file (t : SectionedTable) : SectionedFile where
  base := { t.base with indexColumn := UInt16.ofNat t.before.length }
  fieldInfos := Column.fieldInfos 0 t.columns
  storageInfos := Column.storageInfos 0 t.columns
  recordSize := t.recordSize
  pallet := t.pallet
  common := t.common
  sections := t.sections.map t.stored

def record (t : SectionedTable) (row : WordRow) : Record :=
  ⟨t.schema, (cells row).map fun cell => .scalar cell.scalar, t.before.length⟩

/-- The record of a row and those of its copies, which have other keys. -/
def family (t : SectionedTable) (s : WordSection) (row : WordRow) : List Record :=
  t.record row :: (s.copies.filter fun c => c.sourceKey = row.key).map fun c =>
    t.record { row with key := c.newKey }

def records (t : SectionedTable) : List Record :=
  t.sections.flatMap fun s => s.rows.flatMap (t.family s)

/-- Everything fits where it is to be written. -/
structure Fits (t : SectionedTable) : Prop where
  sections_ne : t.sections ≠ []
  rows_ne : ∀ s ∈ t.sections, s.rows ≠ []
  rows : t.file.rowCount < wordLimit
  sectionCount : t.sections.length < wordLimit
  starts : ∀ p ∈ t.file.placed, p.start < wordLimit
  strings : ∀ s ∈ t.sections, s.strings.length < wordLimit
  keys : ∀ s ∈ t.sections, s.rows.length * 4 < wordLimit
  copies : ∀ s ∈ t.sections, s.copies.length * CopyTable.entrySize < wordLimit
  before : ∀ s ∈ t.sections, ∀ row ∈ s.rows,
    List.Forall₂ (WordField.Admits s.strings) t.before row.before
  after : ∀ s ∈ t.sections, ∀ row ∈ s.rows,
    List.Forall₂ (WordField.Admits s.strings) t.after row.after
  near : ∀ s ∈ t.sections, ∀ (i : Nat) (row : WordRow), s.rows[i]? = some row →
    WordCell.AllNear (t.stringsOffset s) (i * t.recordSize.toNat) (t.storedCells row)
  columns : Column.AllFit 0 ⟨0, 0⟩ t.columns
  recordWidth : Column.recordWidthOf t.columns ≤ 8 * t.recordSize.toNat
  infos : t.columns.length * StorageInfo.entrySize < wordLimit
  keyColumn : t.before.length < 2 ^ 16
  pallet : t.pallet.length < wordLimit
  common : t.common.length < wordLimit
  flags : t.base.hasOffsetMap = false
  bytes : t.file.bytes.length < positionLimit

variable {t : SectionedTable}

theorem recordWidthOf_columns (t : SectionedTable) :
    Column.recordWidthOf t.columns = 32 * t.storedFields.length := by
  unfold columns
  generalize t.storedFields.length = count
  induction count with
  | zero => rfl
  | succ count ih =>
      change 32 + Column.recordWidthOf (List.replicate count (.plain 32 1)) = _
      rw [ih]
      omega

def descriptors (t : SectionedTable) : List Descriptor :=
  wordDescriptors 0 t.storedFields.length

theorem keyTable_stored (h : t.Fits) {s : WordSection} (hs : s ∈ t.sections) :
    Section.keyTable (t.stored s).keys =
      if t.hasIndexTables then some ⟨s.rows.map WordRow.key⟩ else none := by
  unfold stored Section.keyTable
  cases t.hasIndexTables with
  | true =>
      have hne : s.rows.map WordRow.key ≠ [] := fun hnil =>
        h.rows_ne s hs (List.map_eq_nil_iff.mp hnil)
      rw [if_pos rfl, if_pos rfl, if_neg hne]
  | false => rfl

namespace Fits

theorem admits_storedCells (h : t.Fits) {s : WordSection} (hs : s ∈ t.sections) {row : WordRow}
    (hrow : row ∈ s.rows) :
    List.Forall₂ (WordField.Admits s.strings) t.storedFields (t.storedCells row) := by
  have hbefore := h.before s hs row hrow
  have hafter := h.after s hs row hrow
  unfold storedFields storedCells
  cases t.hasIndexTables with
  | true => exact List.rel_append hbefore hafter
  | false => exact List.rel_append hbefore (List.Forall₂.cons rfl hafter)

theorem storedSection (h : t.Fits) {s : WordSection} (hs : s ∈ t.sections) :
    (t.stored s).Fits t.recordSize where
  rows := by
    have hcount := h.rows
    have hle : (t.stored s).rows.length ≤ t.file.rowCount :=
      le_total_of_mem (List.mem_map.mpr ⟨t.stored s, List.mem_map_of_mem hs, rfl⟩)
    omega
  row := by
    intro row hrow
    obtain ⟨i, hi, rfl⟩ := List.mem_mapIdx.mp hrow
    exact BitField.length_bytes _ _
  strings := h.strings s hs
  keys := by
    have hkeys := h.keys s hs
    rw [length_flatMap_of_length length_wordBytes]
    unfold stored
    cases t.hasIndexTables with
    | true => simpa using hkeys
    | false => exact (by decide : 0 < wordLimit)
  keyCount := by
    unfold stored
    cases t.hasIndexTables with
    | true => simp
    | false => exact fun hne => absurd rfl hne
  copies := by
    rw [length_flatMap_of_length Copy.length_bytes]
    exact h.copies s hs

theorem file (h : t.Fits) : t.file.Fits where
  rows_ne := by
    obtain ⟨s, sections, hsections⟩ := List.exists_cons_of_ne_nil h.sections_ne
    have hs : s ∈ t.sections := by
      rw [hsections]
      exact List.mem_cons_self ..
    have hle : (t.stored s).rows.length ≤ t.file.rowCount :=
      le_total_of_mem (List.mem_map.mpr ⟨t.stored s, List.mem_map_of_mem hs, rfl⟩)
    have hpositive : 0 < (t.stored s).rows.length := by
      change 0 < (s.rows.mapIdx _).length
      rw [List.length_mapIdx]
      exact List.length_pos_of_ne_nil (h.rows_ne s hs)
    omega
  rows := h.rows
  fieldInfos := by
    have hinfos := h.infos
    change (Column.fieldInfos 0 t.columns).length < _
    rw [Column.length_fieldInfos]
    simp only [StorageInfo.entrySize] at hinfos
    omega
  storageInfos := by
    change ((Column.storageInfos 0 t.columns).flatMap _).length < _
    rw [length_flatMap_of_length StorageInfo.length_bytes, Column.length_storageInfos]
    exact h.infos
  pallet := h.pallet
  common := h.common
  sectionCount := by
    change (t.sections.map _).length < _
    rw [List.length_map]
    exact h.sectionCount
  sections := by
    intro stored hstored
    obtain ⟨s, hs, rfl⟩ := List.mem_map.mp hstored
    exact h.storedSection hs
  starts := h.starts
  flags := h.flags
  bytes := h.bytes

theorem descriptors_file (h : t.Fits) :
    StorageInfo.descriptors t.file.fieldInfos 0 ⟨0, 0⟩ t.file.storageInfos =
      .ok t.descriptors := by
  have hvalid : ∀ column ∈ t.columns, column.Valid := by
    intro column hcolumn
    rw [List.eq_of_mem_replicate hcolumn]
    decide
  have hread : StorageInfo.descriptors t.file.fieldInfos 0 ⟨0, 0⟩ t.file.storageInfos =
      .ok (Column.descriptors 0 ⟨0, 0⟩ t.columns) :=
    Column.descriptors_storageInfos hvalid h.columns rfl
  rwa [SectionedTable.columns, wordDescriptors.eq_descriptors 0] at hread

theorem checkWidth_file (h : t.Fits) :
    Descriptor.checkWidth t.file.header t.descriptors = .ok () := by
  have hwidth : Column.recordWidthOf t.columns ≤ t.file.header.recordBits := by
    change _ ≤ t.recordSize.toNat * 8
    rw [Nat.mul_comm]
    exact h.recordWidth
  have hcheck : Descriptor.checkWidth t.file.header
      (Column.descriptors 0 ⟨0, 0⟩ t.columns ++ []) = .ok () :=
    Column.checkWidth_descriptors nofun hwidth
  rwa [List.append_nil, SectionedTable.columns, wordDescriptors.eq_descriptors 0] at hcheck

end Fits

def mapping (t : SectionedTable) : Mapping :=
  if t.hasIndexTables then
    ⟨Mapping.plansFrom 0 (t.before.map WordField.toField)
        (wordDescriptors 0 t.before.length) ++
      ⟨.u32, false, .indexTable⟩ ::
        Mapping.plansFrom t.before.length (t.after.map WordField.toField)
          (wordDescriptors t.before.length t.after.length),
      some t.before.length, none⟩
  else
    ⟨Mapping.plansFrom 0 (t.fields.map WordField.toField)
        (wordDescriptors 0 t.fields.length),
      some t.before.length, some t.before.length⟩

theorem isSingle_mapping (t : SectionedTable) : ∀ p ∈ t.mapping.fields, p.IsSingle := by
  unfold mapping
  cases t.hasIndexTables with
  | true =>
      intro p hp
      rcases List.mem_append.mp hp with hp | hp
      · exact Mapping.isSingle_plansFrom_words p hp
      · rcases List.mem_cons.mp hp with rfl | hp
        · exact ⟨rfl, rfl⟩
        · exact Mapping.isSingle_plansFrom_words p hp
  | false => exact Mapping.isSingle_plansFrom_words

theorem keyField?_mapping (t : SectionedTable) : t.mapping.keyField? = some t.before.length := by
  unfold mapping
  cases t.hasIndexTables <;> rfl

theorem build_mapping (t : SectionedTable) :
    Mapping.build t.schema t.descriptors t.before.length t.hasIndexTables = .ok t.mapping := by
  unfold Mapping.build mapping descriptors storedFields
  cases t.hasIndexTables with
  | true =>
      have hkind : t.keyField.toField.kind ≠ .text := (by decide : FieldKind.u32 ≠ .text)
      have hbuild := Mapping.buildIndexed_of_fits (wordDescriptors.fits 0 t.before)
        (wordDescriptors.fits t.before.length t.after) hkind rfl
      have hdescriptors := wordDescriptors.append 0 t.before.length t.after.length
      rw [Nat.zero_add] at hdescriptors
      rw [← hdescriptors, ← List.map_cons, ← List.map_append, List.length_map,
        ← List.length_append] at hbuild
      exact hbuild
  | false =>
      have hlength : t.before.length < t.fields.length := by
        rw [fields, List.length_append, List.length_cons]
        omega
      have hposition : t.before.length < t.schema.fields.length := by
        rwa [schema, List.length_map]
      have hfits : List.Forall₂ Mapping.Fits t.schema.fields
          (wordDescriptors 0 t.fields.length) := wordDescriptors.fits 0 t.fields
      have hkey : (Mapping.plansFrom 0 t.schema.fields
          (wordDescriptors 0 t.fields.length)).findIdx? (FieldPlan.startsAt (0 + t.before.length)) =
            some t.before.length := Mapping.findIdx?_plansFrom hfits hposition
      have hbuild := Mapping.buildInline_of_fits hfits (hfits.length_eq ▸ hposition)
      rw [Nat.zero_add] at hkey
      rw [hkey] at hbuild
      exact hbuild

def metadata (t : SectionedTable) : Metadata :=
  t.file.metadata t.descriptors t.schema t.mapping

variable {source : Source}

theorem gives_metadata (h : t.Fits) (hholds : source.Holds 0 t.file.bytes) :
    Gives (fun _ => True) (Metadata.read source t.schema) t.metadata := by
  refine SectionedFile.gives_metadata h.file hholds h.descriptors_file h.checkWidth_file ?_
  intro stored hstored
  obtain ⟨s, hs, rfl⟩ := List.mem_map.mp hstored
  have hcolumn : (UInt16.ofNat t.before.length).toNat = t.before.length :=
    UInt16.toNat_ofNat_of_lt' h.keyColumn
  have htable : (Section.keyTable (t.stored s).keys).isSome = t.hasIndexTables := by
    rw [keyTable_stored h hs]
    cases t.hasIndexTables <;> rfl
  change Mapping.build t.schema t.descriptors (UInt16.ofNat t.before.length).toNat _ = _
  rw [hcolumn, htable]
  exact t.build_mapping

/-- What the row at an index is decoded with, if its section starts at `start`. -/
structure Decodes (t : SectionedTable) (s : WordSection) (start index : Nat) (row : WordRow)
    (c : RowContext) (external : Option UInt32) : Prop where
  reaches : c.Reaches s.strings
  offset : c.offset = start + index * t.recordSize.toNat
  stringBlockStart : c.stringBlockStart = start + t.stringsOffset s
  descriptors : c.descriptors = t.descriptors
  external : external = if t.hasIndexTables then some row.key else none

namespace Decodes

variable {s : WordSection} {start i : Nat} {row : WordRow} {c : RowContext}
  {external : Option UInt32}

theorem getElem?_descriptors (hc : t.Decodes s start i row c external) {j : Nat}
    (hj : j < t.storedFields.length) :
    c.descriptors[j]? = some ⟨32 * j, 32, 1, .plain false⟩ := by
  rw [hc.descriptors]
  exact wordDescriptors.getElem? hj

theorem stop_le (hc : t.Decodes s start i row c external) (h : t.Fits)
    (hrow : s.rows[i]? = some row) :
    c.offset + 4 * t.storedFields.length ≤ c.stringBlockStart := by
  have hwidth := h.recordWidth
  rw [recordWidthOf_columns] at hwidth
  have hi : i < s.rows.length := (List.getElem?_eq_some_iff.mp hrow).1
  have hrows : (i + 1) * t.recordSize.toNat ≤ t.stringsOffset s := Nat.mul_le_mul_right _ hi
  rw [Nat.succ_mul] at hrows
  rw [hc.offset, hc.stringBlockStart]
  omega

theorem allNear (hc : t.Decodes s start i row c external) (h : t.Fits) (hs : s ∈ t.sections)
    (hrow : s.rows[i]? = some row) :
    WordCell.AllNear c.stringBlockStart c.offset (t.storedCells row) := by
  -- The row was written with positions in its section; the distances are the same in the file.
  rw [hc.offset, hc.stringBlockStart, WordCell.allNear_add]
  exact h.near s hs i row hrow

theorem allStored (hc : t.Decodes s start i row c external) (h : t.Fits) (hs : s ∈ t.sections)
    (hrow : s.rows[i]? = some row) :
    BitField.AllStored (t.rowBytes s i row) 0
      (WordCell.fields c.stringBlockStart c.offset (t.storedCells row)) := by
  have hadmits := h.admits_storedCells hs (List.mem_of_getElem? hrow)
  have hwidth := h.recordWidth
  rw [recordWidthOf_columns, hadmits.length_eq] at hwidth
  rw [hc.offset, hc.stringBlockStart, WordCell.fields_add]
  refine BitField.allStored_bytes ?_
  rwa [WordCell.widthOf_fields]

/-- With an index table, the words of the record feed the fields around the key. -/
theorem holds_indexed (hc : t.Decodes s start i row c external) (h : t.Fits) (hs : s ∈ t.sections)
    (hrow : s.rows[i]? = some row) (hindexed : t.hasIndexTables = true) :
    List.Forall₂ (FieldPlan.Holds (RowState.Sound c (t.rowBytes s i row) s.strings) c external
      none) t.mapping.fields (((cells row).map WordCell.scalar).map fun s => [s]) := by
  have hmem := List.mem_of_getElem? hrow
  have hbefore := h.before s hs row hmem
  have hafter := h.after s hs row hmem
  have hlength : t.before.length = row.before.length := hbefore.length_eq
  have hfields : t.storedFields = t.before ++ t.after := if_pos hindexed
  have hcells : t.storedCells row = row.before ++ row.after := if_pos hindexed
  have hnear := hc.allNear h hs hrow
  rw [hcells] at hnear
  obtain ⟨hnear, hnearAfter⟩ := WordCell.allNear_append.mp hnear
  have hstored := hc.allStored h hs hrow
  rw [hcells, WordCell.fields_append] at hstored
  obtain ⟨hstored, hstoredAfter⟩ := BitField.allStored_append.mp hstored
  rw [WordCell.widthOf_fields, Nat.zero_add] at hstoredAfter
  rw [← hlength] at hnearAfter hstoredAfter
  have hend := hc.stop_le h hrow
  rw [hfields, List.length_append] at hend
  have hdescriptor : ∀ j < t.before.length + t.after.length,
      c.descriptors[j]? = some ⟨32 * j, 32, 1, .plain false⟩ := by
    intro j hj
    refine hc.getElem?_descriptors ?_
    rwa [hfields, List.length_append]
  have hkey : external = some row.key := by
    rw [hc.external, if_pos hindexed]
  rw [mapping, if_pos hindexed]
  change List.Forall₂ _ (Mapping.plansFrom 0 _ _ ++ _ :: Mapping.plansFrom _ _ _)
    (((row.before ++ .number row.key :: row.after).map WordCell.scalar).map _)
  rw [List.map_append, List.map_append, List.map_cons, List.map_cons]
  refine List.rel_append ?_ (List.Forall₂.cons ?_ ?_)
  · exact WordCell.holds_plans hc.reaches hbefore (fun j hj => hdescriptor j (by omega))
      (by omega) hnear hstored
  · exact ⟨row.key, _, hkey, Scalar.ofWord_u32 row.key, rfl⟩
  · exact WordCell.holds_plans hc.reaches hafter (fun j hj => hdescriptor j (by omega))
      (by omega) hnearAfter hstoredAfter

/-- Without an index table, the words of the record feed all fields. -/
theorem holds_inline (hc : t.Decodes s start i row c external) (h : t.Fits) (hs : s ∈ t.sections)
    (hrow : s.rows[i]? = some row) (hindexed : t.hasIndexTables = false) :
    List.Forall₂ (FieldPlan.Holds (RowState.Sound c (t.rowBytes s i row) s.strings) c external
      none) t.mapping.fields (((cells row).map WordCell.scalar).map fun s => [s]) := by
  have hnot : ¬ t.hasIndexTables = true := ne_true_of_eq_false hindexed
  have hfields : t.storedFields = t.fields := if_neg hnot
  have hcells : t.storedCells row = cells row := if_neg hnot
  have hadmits := h.admits_storedCells hs (List.mem_of_getElem? hrow)
  have hnear := hc.allNear h hs hrow
  have hstored := hc.allStored h hs hrow
  have hend := hc.stop_le h hrow
  have hdescriptor : ∀ j < 0 + t.storedFields.length,
      c.descriptors[j]? = some ⟨32 * j, 32, 1, .plain false⟩ := by
    intro j hj
    rw [Nat.zero_add] at hj
    exact hc.getElem?_descriptors hj
  rw [hfields, hcells] at hadmits
  rw [hfields] at hdescriptor hend
  rw [hcells] at hnear hstored
  rw [← Nat.zero_add t.fields.length] at hend
  rw [mapping, if_neg hnot]
  exact WordCell.holds_plans hc.reaches hadmits hdescriptor hend hnear hstored

theorem holds (hc : t.Decodes s start i row c external) (h : t.Fits) (hs : s ∈ t.sections)
    (hrow : s.rows[i]? = some row) :
    List.Forall₂ (FieldPlan.Holds (RowState.Sound c (t.rowBytes s i row) s.strings) c external
      none) t.mapping.fields (((cells row).map WordCell.scalar).map fun s => [s]) := by
  cases hindexed : t.hasIndexTables with
  | true => exact hc.holds_indexed h hs hrow hindexed
  | false => exact hc.holds_inline h hs hrow hindexed

end Decodes

theorem length_rows_stored (h : t.Fits) {s : WordSection} (hs : s ∈ t.sections) :
    (t.stored s).rows.flatten.length = t.stringsOffset s := by
  rw [length_flatten_of_length (h.storedSection hs).row]
  change (s.rows.mapIdx (t.rowBytes s)).length * _ = _
  rw [List.length_mapIdx]
  rfl

theorem externalKey_opened (h : t.Fits) {s : WordSection} (hs : s ∈ t.sections) {i : Nat}
    {row : WordRow} (hrow : s.rows[i]? = some row) (intern : Bool) (index start : Nat) :
    ((t.stored s).opened intern t.recordSize index start).externalKey i =
      .ok (if t.hasIndexTables then some row.key else none) := by
  have hkeys : ((t.stored s).opened intern t.recordSize index start).keys =
      if t.hasIndexTables then some ⟨s.rows.map WordRow.key⟩ else none := keyTable_stored h hs
  unfold Section.externalKey
  rw [hkeys]
  cases t.hasIndexTables with
  | true =>
      have hkey : IndexTable.key? ⟨s.rows.map WordRow.key⟩ i = some row.key := by
        unfold IndexTable.key?
        rw [List.getElem?_map, hrow, Option.map_some]
      rw [if_pos rfl, if_pos rfl]
      dsimp only
      rw [hkey]
      rfl
  | false => rfl

theorem decodeRow_opened (h : t.Fits) {s : WordSection} (hs : s ∈ t.sections) {i : Nat}
    {row : WordRow} (hrow : s.rows[i]? = some row) {start : Nat}
    (hstop : start + (t.stored s).bytes.length < positionLimit) (intern : Bool)
    (shared : SharedTables) (index length : Nat) :
    (((t.stored s).opened intern t.recordSize index start).decodeRow t.metadata shared t.mapping
      ⟨i, start + i * t.recordSize.toNat, length⟩ (t.rowBytes s i row)).1 =
        .ok (t.record row) := by
  have hrows := length_rows_stored h hs
  have hbytes : (t.stored s).rows.flatten.length + s.strings.length ≤
      (t.stored s).bytes.length := by
    change _ ≤ ((t.stored s).rows.flatten ++ (s.strings ++ _)).length
    rw [List.length_append, List.length_append]
    omega
  have hdecodes : t.Decodes s start i row
      (((t.stored s).opened intern t.recordSize index start).context t.metadata shared
        ⟨i, start + i * t.recordSize.toNat, length⟩)
      (if t.hasIndexTables then some row.key else none) := by
    refine ⟨⟨rfl, rfl, h.strings s hs, ?_⟩, rfl, ?_, rfl, rfl⟩
    · change start + (t.stored s).rows.flatten.length + s.strings.length < positionLimit
      omega
    · exact congrArg (start + ·) hrows
  have hvalues := Mapping.gives_values_of_isSingle t.isSingle_mapping
    (hdecodes.holds h hs hrow)
  have hrun := (hvalues (.start (t.rowBytes s i row)
    ((t.stored s).opened intern t.recordSize index start).strings)
    (RowState.sound_start _ _ (StringTable.keeps_ofBytes s.strings intern))).1
  unfold Section.decodeRow
  rw [externalKey_opened h hs hrow intern index start]
  change ((Attempt.on (t.mapping.values _ _) _).1.map fun values =>
    Record.mk t.schema values t.mapping.keyField) = _
  rw [hrun, List.map_map, Mapping.keyField, keyField?_mapping]
  rfl

theorem at?_record {row : WordRow} (hlength : t.before.length = row.before.length) :
    (t.record row).at? t.before.length = some (.scalar (WordCell.scalar (.number row.key))) := by
  change ((row.before ++ .number row.key :: row.after).map fun cell =>
    Value.scalar cell.scalar)[t.before.length]? = _
  rw [hlength, List.map_append, List.getElem?_append_right (by simp)]
  simp

theorem key?_record {row : WordRow} (hlength : t.before.length = row.before.length) :
    (t.record row).key? = some row.key := by
  unfold Record.key?
  change ((t.record row).at? t.before.length).bind Value.toWord? = _
  rw [at?_record hlength, Option.bind_some, Value.toWord?, Value.scalar?, Option.bind_some]
  exact Scalar.toWord?_u32 row.key

theorem withKey_record {row : WordRow} (hlength : t.before.length = row.before.length)
    (key : UInt32) :
    (t.record row).withKey key = .ok (t.record { row with key }) := by
  have hvalues : (t.record row).values.set t.before.length
      (.scalar (.int ⟨.w32, false⟩ (BitVec.ofNat 32 key.toNat))) =
        (t.record { row with key }).values := by
    change ((row.before ++ .number row.key :: row.after).map _).set _ _ =
      ((row.before ++ .number key :: row.after).map _)
    rw [hlength, List.map_append, List.set_append_right _ _ (by simp)]
    simp
    rfl
  have hkey : (t.record row).at? (t.record row).keyField =
      some (.scalar (WordCell.scalar (.number row.key))) := at?_record hlength
  unfold Record.withKey
  rw [hkey]
  exact congrArg (fun values => Except.ok (Record.mk t.schema values t.before.length)) hvalues

theorem duplicateKeys_opened (h : t.Fits) {s : WordSection} (hs : s ∈ t.sections)
    {row : WordRow} (hrow : row ∈ s.rows) (intern : Bool) (index start : Nat) :
    ((t.stored s).opened intern t.recordSize index start).duplicateKeys (t.record row) =
      (s.copies.filter fun c => c.sourceKey = row.key).map Copy.newKey := by
  unfold Section.duplicateKeys
  rw [key?_record (h.before s hs row hrow).length_eq]
  rfl

/-- The items of a section are the records of its rows and of their copies. -/
theorem items_opened (h : t.Fits) {source : Source} {s : WordSection} (hs : s ∈ t.sections)
    {index start : Nat} (hholds : source.Holds start (t.stored s).bytes)
    (hstop : start + (t.stored s).bytes.length < positionLimit)
    (hmapping : t.metadata.mappings[index]? = some t.mapping) (intern : Bool)
    (shared : SharedTables) :
    ((t.stored s).opened intern t.recordSize index start).rows.rows.flatMap
        (((t.stored s).opened intern t.recordSize index start).rowItems source t.metadata shared) =
      (s.rows.flatMap (t.family s)).map .ok := by
  have hrows : source.Holds start (t.stored s).rows.flatten := hholds.left
  have hlength : (t.stored s).rows.length = s.rows.length := List.length_mapIdx
  have hdecode : ∀ i data row, (t.stored s).rows[i]? = some data → s.rows[i]? = some row →
      (((t.stored s).opened intern t.recordSize index start).decodeRow t.metadata shared t.mapping
        ⟨i, start + i * t.recordSize.toNat, t.recordSize.toNat⟩ data).1 =
          .ok (t.record row) := by
    intro i data row hdata hrow
    change (s.rows.mapIdx _)[i]? = some data at hdata
    rw [List.getElem?_mapIdx, hrow] at hdata
    obtain rfl := Option.some.inj hdata
    exact decodeRow_opened h hs hrow hstop intern shared index _
  have hitems := Section.items_fixed rfl hrows (h.storedSection hs).row hmapping hlength hdecode
  have hfamily : ∀ row ∈ s.rows, .ok (t.record row) ::
      (((t.stored s).opened intern t.recordSize index start).duplicateKeys (t.record row)).map
        (t.record row).withKey = (t.family s row).map .ok := by
    intro row hrow
    rw [duplicateKeys_opened h hs hrow, family, List.map_cons, List.map_map, List.map_map]
    congr 1
    refine List.map_congr_left fun c _ => ?_
    exact withKey_record (h.before s hs row hrow).length_eq c.newKey
  rw [hitems, List.map_flatMap]
  have hfst : s.rows.zipIdx.map Prod.fst = s.rows := List.zipIdx_map_fst 0 s.rows
  conv_rhs => rw [← hfst, List.flatMap_map]
  refine List.flatMap_congr fun (row, i) hmem => ?_
  exact hfamily row (List.fst_mem_of_mem_zipIdx hmem)

theorem items_chain (h : t.Fits) {source : Source} (intern : Bool) (shared : SharedTables)
    {index start : Nat} {sections : List WordSection} (hsections : ∀ s ∈ sections, s ∈ t.sections)
    (hplaced : ∀ p ∈ PlacedSection.chain index start (sections.map t.stored),
      source.Holds p.start p.stored.bytes ∧
        p.start + p.stored.bytes.length < positionLimit ∧
        t.metadata.mappings[p.index]? = some t.mapping) :
    ((PlacedSection.chain index start (sections.map t.stored)).map
        (PlacedSection.opened intern t.recordSize)).flatMap
        (fun o => o.rows.rows.flatMap (o.rowItems source t.metadata shared)) =
      (sections.flatMap fun s => s.rows.flatMap (t.family s)).map .ok := by
  induction sections generalizing index start with
  | nil => rfl
  | cons s sections ih =>
      obtain ⟨hholds, hstop, hmapping⟩ := hplaced _ (List.mem_cons_self ..)
      have hfirst := items_opened h (hsections s (List.mem_cons_self ..)) hholds hstop hmapping
        intern shared
      have hothers := ih (fun other hother => hsections other (List.mem_cons_of_mem _ hother))
        fun p hp => hplaced p (List.mem_cons_of_mem _ hp)
      rw [List.map_cons, PlacedSection.chain, List.map_cons, List.flatMap_cons, hothers,
        List.flatMap_cons, List.map_append]
      exact congrArg (· ++ _) hfirst

/-- Opening the file of a table and going through its records gives the records of its rows and of
their copies, section after section. -/
theorem session_sections (h : t.Fits) (options : Options) :
    t.metadata.layout.sections.length = t.sections.length ∧
      Reader.session ⟨t.file.bytes, 0, none⟩ t.schema options =
        .ok (t.metadata, .ok (t.records.map .ok)) := by
  constructor
  · change (t.file.placed.map PlacedSection.layout).length = _
    rw [List.length_map, SectionedFile.placed, PlacedSection.length_chain]
    exact List.length_map _
  · obtain ⟨source, hsource, hholds⟩ := Source.exists_holds t.file.bytes options.copyToMemory
    obtain ⟨shared, hshared⟩ := SectionedFile.exists_shared hholds
      wordDescriptors.isCommon_eq_false t.schema t.mapping
    refine Reader.session_eq_items hsource (gives_metadata h hholds) hshared rfl
      (SectionedFile.gives_sections h.file hholds options.internStrings) ?_
    refine items_chain h options.internStrings shared (fun s hs => hs) fun p hp => ?_
    exact ⟨SectionedFile.holds_placed hholds p hp, h.file.stop_lt hp,
      SectionedFile.getElem?_mappings hp t.descriptors t.schema t.mapping⟩

/-- Two sections with index tables. The first has a copy of its second row. -/
def greetings : SectionedTable where
  base := .basic .wdc2 0 0 0 0
  before := [⟨"name", true⟩]
  keyName := "id"
  after := [⟨"rank", false⟩, ⟨"title", true⟩]
  hasIndexTables := true
  recordSize := 12
  pallet := []
  common := []
  sections := [
    ⟨0, [⟨[.text "a" 0], 5, [.number 50, .text "" 1]⟩,
        ⟨[.text "né" 2], 6, [.number 60, .text "a" 0]⟩],
      [0x61, 0, 0x6E, 0xC3, 0xA9, 0], [⟨106, 6⟩]⟩,
    ⟨0, [⟨[.text "b" 0], 7, [.number 70, .text "b" 0]⟩], [0x62, 0], []⟩]

theorem fits_greetings : greetings.Fits where
  sections_ne := by decide
  rows_ne := by decide
  rows := by decide
  sectionCount := by decide
  starts := by decide
  strings := by decide
  keys := by decide
  copies := by decide
  before := by decide
  after := by decide
  near := by
    rintro s (_ | ⟨_, _ | ⟨_, ⟨⟩⟩⟩) i row hrow
    · match i, hrow with
      | 0, rfl => decide
      | 1, rfl => decide
    · match i, hrow with
      | 0, rfl => decide
  columns := by
    refine ⟨?_, ?_, ?_, trivial⟩ <;> constructor <;> decide
  recordWidth := by decide
  infos := by decide
  keyColumn := by decide
  pallet := by decide
  common := by decide
  flags := by decide
  bytes := by decide +kernel

theorem session_greetings :
    (Reader.session ⟨greetings.file.bytes, 0, none⟩ greetings.schema .default).map
        (fun (session : _ × Except Error (List Item)) => session.2.map fun items =>
          items.map fun item => item.map Record.values) =
      .ok (.ok [
        .ok [.scalar (.text "a"), .scalar (.int ⟨.w32, false⟩ 5),
          .scalar (.int ⟨.w32, false⟩ 50), .scalar (.text "")],
        .ok [.scalar (.text "né"), .scalar (.int ⟨.w32, false⟩ 6),
          .scalar (.int ⟨.w32, false⟩ 60), .scalar (.text "a")],
        .ok [.scalar (.text "né"), .scalar (.int ⟨.w32, false⟩ 106),
          .scalar (.int ⟨.w32, false⟩ 60), .scalar (.text "a")],
        .ok [.scalar (.text "b"), .scalar (.int ⟨.w32, false⟩ 7),
          .scalar (.int ⟨.w32, false⟩ 70), .scalar (.text "b")]]) := by
  rw [(session_sections fits_greetings .default).2]
  rfl

end SectionedTable

end ClientTable
