import ClientTable.Proofs.StoredFile
import ClientTable.Proofs.StoredRows

namespace ClientTable

open Attempt

/-- A table of fields that are stored in columns. The first field holds the keys. -/
structure StoredTable where
  /-- The header words that nothing else decides. -/
  base : Header
  fields : List StoredField
  related : Option RelatedField
  recordSize : UInt32
  rows : List (List Cell)

namespace StoredTable

def columns (t : StoredTable) : List Column :=
  StoredField.columns t.fields

def schema (t : StoredTable) : Schema :=
  ⟨t.fields.map StoredField.toField ++ t.related.toList.map RelatedField.toField⟩

def file (t : StoredTable) : StoredFile where
  base := { t.base with indexColumn := 0 }
  fieldInfos := Column.fieldInfos 0 t.columns
  storageInfos := Column.storageInfos 0 t.columns
  recordSize := t.recordSize
  rows := t.rows.map fun row =>
    BitField.bytes t.recordSize.toNat (StoredField.rowFields t.fields row)
  strings := []
  keys := []
  copies := []
  pallet := Column.palletBlock t.columns
  common := Column.commonBlock t.columns
  related := t.related.map RelatedField.block

def scalars (t : StoredTable) (index : Nat) (row : List Cell) : List (List Scalar) :=
  List.zipWith (StoredField.scalars (StoredField.rowKey row)) t.fields row ++
    t.related.toList.map fun r => [r.scalar index]

def record (t : StoredTable) (index : Nat) (row : List Cell) : Record :=
  ⟨t.schema, (t.scalars index row).map Value.ofScalars, 0⟩

def records (t : StoredTable) : List Record :=
  t.rows.zipIdx.map fun (row, index) => t.record index row

structure Fits (t : StoredTable) : Prop where
  key : ∃ first others, t.fields = first :: others ∧ first.HoldsKeys
  rows_ne : t.rows ≠ []
  rows : t.rows.length < wordLimit
  row : ∀ row ∈ t.rows, List.Forall₂ StoredField.Admits t.fields row
  rowKey : ∀ row ∈ t.rows, ∀ n cells, row = .numbers [n] :: cells → n < wordLimit
  columns : Column.AllFit 0 ⟨0, 0⟩ t.columns
  recordWidth : Column.recordWidthOf t.columns ≤ 8 * t.recordSize.toNat
  infos : t.fields.length * StorageInfo.entrySize < wordLimit
  related : ∀ r, t.related = some r →
    t.recordSize.toNat * 8 < wordLimit ∧ r.block.bytes.length < wordLimit
  flags : t.base.hasOffsetMap = false
  bytes : t.file.bytes.length < positionLimit

variable {t : StoredTable}

namespace Fits

theorem file (h : t.Fits) : t.file.Fits where
  rows_ne := fun hnil => h.rows_ne (List.map_eq_nil_iff.mp hnil)
  rows := by
    change (t.rows.map _).length < _
    rw [List.length_map]
    exact h.rows
  row := by
    intro row hrow
    obtain ⟨cells, _, rfl⟩ := List.mem_map.mp hrow
    exact BitField.length_bytes _ _
  fieldInfos := by
    have hinfos := h.infos
    change (Column.fieldInfos 0 t.columns).length < _
    rw [Column.length_fieldInfos, StoredTable.columns, StoredField.columns, List.length_map]
    simp only [StorageInfo.entrySize, wordLimit] at hinfos ⊢
    omega
  strings := (by decide : 0 < wordLimit)
  keys := (by decide : 0 < wordLimit)
  copies := (by decide : 0 < wordLimit)
  storageInfos := by
    change ((Column.storageInfos 0 t.columns).flatMap _).length < _
    rw [length_flatMap_of_length StorageInfo.length_bytes, Column.length_storageInfos,
      StoredTable.columns, StoredField.columns, List.length_map]
    exact h.infos
  pallet := by
    have hlengths := h.columns.length_blocks_lt (by decide) (by decide)
    rw [Nat.zero_add, Nat.zero_add] at hlengths
    exact hlengths.1
  common := by
    have hlengths := h.columns.length_blocks_lt (by decide) (by decide)
    rw [Nat.zero_add, Nat.zero_add] at hlengths
    exact hlengths.2
  relationships := by
    change (((t.related.map RelatedField.block).map RelationshipBlock.bytes).getD []).length < _
    cases hrelated : t.related with
    | none => decide
    | some r => exact (h.related r hrelated).2
  flags := h.flags
  bytes := h.bytes

end Fits

def descriptors (t : StoredTable) : List Descriptor :=
  Column.descriptors 0 ⟨0, 0⟩ t.columns

def mapping (t : StoredTable) : Mapping :=
  ⟨Mapping.plansFrom 0 t.schema.fields (t.descriptors ++ t.file.relationshipDescriptors), some 0,
    some 0⟩

theorem relationshipDescriptors_file (t : StoredTable) :
    t.file.relationshipDescriptors =
      t.related.toList.map fun _ => ⟨t.file.header.recordBits, 32, 1, .relationship⟩ := by
  unfold StoredFile.relationshipDescriptors
  change ((t.related.map RelatedField.block).toList.map _) = _
  cases t.related <;> rfl

theorem fits_schema (t : StoredTable) :
    List.Forall₂ Mapping.Fits t.schema.fields
      (t.descriptors ++ t.file.relationshipDescriptors) := by
  refine List.rel_append (StoredField.fits_descriptors t.fields 0 ⟨0, 0⟩) ?_
  rw [relationshipDescriptors_file]
  cases t.related with
  | none => exact List.Forall₂.nil
  | some r => exact List.Forall₂.cons rfl List.Forall₂.nil

theorem build_mapping (h : t.Fits) :
    Mapping.build t.schema (t.descriptors ++ t.file.relationshipDescriptors)
      t.file.base.indexColumn.toNat (Section.keyTable t.file.keys).isSome = .ok t.mapping := by
  obtain ⟨first, others, hfields, _⟩ := h.key
  have hlength := t.fits_schema.length_eq
  have hpositive : 0 < t.schema.fields.length := by
    unfold schema
    rw [hfields]
    simp
  have hkey : (Mapping.plansFrom 0 t.schema.fields
      (t.descriptors ++ t.file.relationshipDescriptors)).findIdx? (FieldPlan.startsAt 0) =
        some 0 := Mapping.findIdx?_plansFrom t.fits_schema hpositive
  change Mapping.buildInline t.schema (t.descriptors ++ t.file.relationshipDescriptors) 0 = _
  rw [Mapping.buildInline_of_fits t.fits_schema (by omega), hkey]
  rfl

def metadata (t : StoredTable) : Metadata :=
  t.file.metadata t.descriptors t.schema t.mapping

variable {source : Source}

theorem gives_metadata (h : t.Fits) (hholds : source.Holds 0 t.file.bytes) :
    Gives (fun _ => True) (Metadata.read source t.schema) t.metadata := by
  refine StoredFile.gives_metadata h.file hholds ?_ ?_ ?_ (build_mapping h)
  · refine Column.descriptors_storageInfos ?_ h.columns rfl
    intro column hcolumn
    obtain ⟨f, _, rfl⟩ := List.mem_map.mp hcolumn
    exact f.valid
  · intro hrelated
    change (t.related.map RelatedField.block).isSome = true at hrelated
    cases hr : t.related with
    | none =>
        rw [hr] at hrelated
        cases hrelated
    | some r => exact (h.related r hr).1
  · refine Column.checkWidth_descriptors ?_ ?_
    · intro d hd
      obtain rfl := StoredFile.eq_of_mem_relationshipDescriptors hd
      rfl
    · change Column.recordWidthOf t.columns ≤ t.recordSize.toNat * 8
      rw [Nat.mul_comm]
      exact h.recordWidth

theorem fields_mapping (t : StoredTable) :
    t.mapping.fields =
      Mapping.plansFrom 0 (t.fields.map StoredField.toField) t.descriptors ++
        Mapping.plansFrom t.fields.length (t.related.toList.map RelatedField.toField)
          t.file.relationshipDescriptors := by
  have hlength : (t.fields.map StoredField.toField).length = t.descriptors.length :=
    (StoredField.fits_descriptors t.fields 0 ⟨0, 0⟩).length_eq
  have hplans := Mapping.plansFrom_append 0 hlength (t.related.toList.map RelatedField.toField)
    t.file.relationshipDescriptors
  rw [Nat.zero_add, List.length_map] at hplans
  exact hplans

/-- The columns are where a row of the opened file has them. -/
theorem allPlaced {c : RowContext} (hdescriptors : c.descriptors =
      t.descriptors ++ t.file.relationshipDescriptors)
    (hpallet : c.pallet = some ⟨Column.palletBlock t.columns⟩ ∨ Column.palletBlock t.columns = [])
    (hcommon : c.common = some ⟨Column.commonColumns 0 t.columns⟩ ∨
      c.common = none ∧ Column.commonBlock t.columns = []) :
    Column.AllPlaced c 0 0 ⟨0, 0⟩ t.columns := by
  refine Column.allPlaced_of_blocks hdescriptors ?_ ?_
  · intro hne
    rcases hpallet with htable | hempty
    · exact ⟨_, htable, List.prefix_rfl⟩
    · exact absurd hempty hne
  · intro i column hcolumn key
    rcases hcommon with htable | ⟨hnone, hempty⟩
    · rw [htable]
      exact Column.value?_commonColumns hcolumn key
    · have hbytes : column.commonBytes = [] :=
        List.flatMap_eq_nil_iff.mp hempty column (List.mem_of_getElem? hcolumn)
      rw [hnone]
      cases column with
      | common default entries =>
          rw [show entries = [] from eq_nil_of_flatMap (by decide) KeyedWord.length_bytes hbytes]
          rfl
      | _ => rfl

/-- All that a row is decoded with. -/
structure Context (t : StoredTable) (c : RowContext) : Prop where
  fixed : c.isVariable = false
  descriptors : c.descriptors = t.descriptors ++ t.file.relationshipDescriptors
  pallet : c.pallet = some ⟨Column.palletBlock t.columns⟩ ∨ Column.palletBlock t.columns = []
  common : c.common = some ⟨Column.commonColumns 0 t.columns⟩ ∨
    c.common = none ∧ Column.commonBlock t.columns = []
  relationships : c.relationships = t.related.map fun r => ⟨r.block.entries⟩

theorem holds_fields (h : t.Fits) {c : RowContext} (hc : t.Context c) {row : List Cell}
    (hrow : row ∈ t.rows) (texts : Bytes) :
    List.Forall₂ (FieldPlan.Holds (RowState.Sound c
        (BitField.bytes t.recordSize.toNat (StoredField.rowFields t.fields row)) texts)
      c none (some (StoredField.rowKey row))) t.mapping.fields (t.scalars c.index row) := by
  have hadmits := h.row row hrow
  have hstored : BitField.AllStored
      (BitField.bytes t.recordSize.toNat (StoredField.rowFields t.fields row)) 0
      (StoredField.rowFields t.fields row) := by
    refine BitField.allStored_bytes ?_
    rw [StoredField.widthOf_rowFields hadmits]
    exact h.recordWidth
  have hplaced := allPlaced hc.descriptors hc.pallet hc.common
  rw [fields_mapping]
  refine List.rel_append (StoredField.holds_plans hc.fixed hadmits h.columns hplaced hstored) ?_
  have hlength : t.descriptors.length = t.fields.length := by
    rw [descriptors, Column.length_descriptors, columns, StoredField.columns, List.length_map]
  have hdescriptors := hc.descriptors
  rw [relationshipDescriptors_file] at hdescriptors ⊢
  cases hr : t.related with
  | none => exact List.Forall₂.nil
  | some r =>
      rw [hr] at hdescriptors
      have hd : c.descriptors[t.fields.length]? =
          some ⟨t.file.header.recordBits, 32, 1, .relationship⟩ := by
        rw [hdescriptors, ← hlength, List.getElem?_append_right (Nat.le_refl _), Nat.sub_self]
        rfl
      refine List.Forall₂.cons (r.holds_slots hd ?_ _) List.Forall₂.nil
      rw [hc.relationships, hr]
      rfl

theorem shapes_fields (h : t.Fits) {row : List Cell} (hrow : row ∈ t.rows) (index : Nat) :
    List.Forall₂ FieldPlan.Shapes t.mapping.fields (t.scalars index row) := by
  rw [fields_mapping]
  refine List.rel_append (StoredField.shapes_plans (h.row row hrow) 0 0 ⟨0, 0⟩) ?_
  rw [relationshipDescriptors_file]
  cases hr : t.related with
  | none => exact List.Forall₂.nil
  | some r => exact List.Forall₂.cons ⟨List.cons_ne_nil _ _, rfl⟩ List.Forall₂.nil

theorem keyIs_rowKey (h : t.Fits) {I : RowState → Prop} (c : RowContext) {row : List Cell}
    (hrow : row ∈ t.rows) (index : Nat) :
    Mapping.KeyIs I t.mapping c none (some (StoredField.rowKey row)) (t.scalars index row) := by
  obtain ⟨first, others, hfields, hkeys⟩ := h.key
  have hadmits := h.row row hrow
  rw [hfields] at hadmits
  obtain ⟨cell, cells, hcell, _, rfl⟩ := List.forall₂_cons_left_iff.mp hadmits
  obtain ⟨n, rfl, hlow, hhigh⟩ := StoredField.exists_number hkeys hcell
  have hword : (Scalar.ofInt first.kind n).toWord? = some (UInt32.ofNat n.toNat) :=
    Scalar.toWord?_ofInt hkeys.1 hlow hhigh (h.rowKey _ hrow n cells rfl)
  have hknown : (List.zipWith FieldPlan.known t.mapping.fields
      (t.scalars index (.numbers [n] :: cells)))[0]? = some [some (Scalar.ofInt first.kind n)] := by
    rw [fields_mapping, descriptors, columns, scalars, hfields]
    exact congrArg some (StoredField.known_of_holdsKeys hkeys _ 0 0 ⟨0, 0⟩ n)
  exact Mapping.gives_bodyKey rfl hknown hword

theorem gives_values (h : t.Fits) {c : RowContext} (hc : t.Context c) {row : List Cell}
    (hrow : row ∈ t.rows) (texts : Bytes) :
    Gives (RowState.Sound c
        (BitField.bytes t.recordSize.toNat (StoredField.rowFields t.fields row)) texts)
      (t.mapping.values c none) ((t.scalars c.index row).map Value.ofScalars) :=
  Mapping.gives_values (holds_fields h hc hrow texts) (shapes_fields h hrow c.index)
    fun _ => keyIs_rowKey h c hrow c.index

theorem decodeRow_opened (h : t.Fits) {shared : SharedTables}
    (hpallet : shared.pallet = some ⟨Column.palletBlock t.columns⟩ ∨
      Column.palletBlock t.columns = [])
    (hcommon : shared.common = some ⟨Column.commonColumns 0 t.columns⟩ ∨
      shared.common = none ∧ Column.commonBlock t.columns = [])
    (intern : Bool) (start stringBlockStart index offset length : Nat) {row : List Cell}
    (hrow : row ∈ t.rows) :
    ((t.file.opened intern start stringBlockStart).decodeRow t.metadata shared t.mapping
      ⟨index, offset, length⟩
      (BitField.bytes t.recordSize.toNat (StoredField.rowFields t.fields row))).1 =
        .ok (t.record index row) := by
  have hc : t.Context ((t.file.opened intern start stringBlockStart).context t.metadata
      shared ⟨index, offset, length⟩) := by
    refine ⟨rfl, rfl, hpallet, hcommon, ?_⟩
    change (t.related.map RelatedField.block).map _ = _
    cases t.related <;> rfl
  have hvalues := gives_values h hc hrow []
  have hrun := (hvalues (.start (BitField.bytes t.recordSize.toNat
    (StoredField.rowFields t.fields row)) (t.file.opened intern start stringBlockStart).strings)
    (RowState.sound_start _ _ (StringTable.keeps_ofBytes [] intern))).1
  unfold Section.decodeRow
  change ((Attempt.on (t.mapping.values _ none) _).1.map fun values =>
    Record.mk t.schema values 0) = _
  rw [hrun]
  rfl

theorem duplicateKeys_opened (t : StoredTable) (intern : Bool) (start stringBlockStart : Nat)
    (record : Record) :
    (t.file.opened intern start stringBlockStart).duplicateKeys record = [] := by
  unfold Section.duplicateKeys
  cases record.key? with
  | none => rfl
  | some key => rfl

/-- Opening the file of a table and going through its records gives the records of its rows. -/
theorem session_file (h : t.Fits) (options : Options) :
    Reader.session ⟨t.file.bytes, 0, none⟩ t.schema options =
      .ok (t.metadata, .ok (t.records.map .ok)) := by
  obtain ⟨source, hsource, hholds⟩ := Source.exists_holds t.file.bytes options.copyToMemory
  have hvalues : CommonTable.columnsOfChunks t.file.common 0
      (t.descriptors ++ t.file.relationshipDescriptors) =
        .ok (Column.commonColumns 0 t.columns) := by
    refine Column.columnsOfChunks_descriptors ?_ (Nat.zero_le _) rfl
    intro d hd
    obtain rfl := StoredFile.eq_of_mem_relationshipDescriptors hd
    rfl
  obtain ⟨shared, hshared, hpallet, hcommon⟩ :=
    StoredFile.exists_shared hholds t.schema t.mapping hvalues
  obtain ⟨start, stringBlockStart, hrecords, hsection⟩ :=
    StoredFile.gives_section h.file hholds (fun hne => absurd rfl hne) options.internStrings
  refine Reader.session_eq_items hsource (gives_metadata h hholds) hshared rfl
    (List.Forall₂.cons hsection List.Forall₂.nil) ?_
  have hdecode : ∀ i data row, t.file.rows[i]? = some data → t.rows[i]? = some row →
      ((t.file.opened options.internStrings start stringBlockStart).decodeRow t.metadata
        shared t.mapping
        ⟨i, start + i * t.recordSize.toNat, t.recordSize.toNat⟩ data).1 = .ok (t.record i row) := by
    intro i data row hdata hrow
    change (t.rows.map _)[i]? = some data at hdata
    rw [List.getElem?_map, hrow] at hdata
    obtain rfl := Option.some.inj hdata
    exact decodeRow_opened h hpallet hcommon options.internStrings start stringBlockStart i _ _
      (List.mem_of_getElem? hrow)
  have hlength : t.file.rows.length = t.rows.length := List.length_map _
  have hitems := Section.items_fixed rfl hrecords h.file.row rfl hlength hdecode
  rw [List.flatMap_singleton, hitems, records, List.map_map, List.map_eq_flatMap]
  refine List.flatMap_congr fun (row, i) _ => ?_
  dsimp only
  rw [duplicateKeys_opened]
  rfl

/-- Two rows with one column of each kind and a foreign key for the second row. -/
def mixedColumns : StoredTable where
  base := .basic .wdc1 0 0 0 0
  fields := [
    ⟨"id", ⟨.w16, false⟩, .plain 16 1, by decide, by decide⟩,
    ⟨"delta", ⟨.w8, true⟩, .immediate 5 true, by decide, by decide⟩,
    ⟨"color", ⟨.w32, false⟩, .pallet 2 [10, 20, 30], by decide, by decide⟩,
    ⟨"size", ⟨.w32, true⟩, .palletArray 1 2 [#v[1, 2], #v[3, 4]], by decide, by decide⟩,
    ⟨"rank", ⟨.w32, false⟩, .common 7 [⟨6, 70⟩, ⟨6, 71⟩], by decide, by decide⟩]
  related := some ⟨"owner", ⟨.w32, false⟩, rfl, ⟨[⟨1, 900⟩], 900, 900⟩⟩
  recordSize := 4
  rows := [
    [.numbers [5], .numbers [-3], .index 2, .index 1, .keyed],
    [.numbers [6], .numbers [15], .index 0, .index 0, .keyed]]

theorem fits_mixedColumns : mixedColumns.Fits where
  key := ⟨_, _, rfl, rfl, 16, Or.inl rfl⟩
  rows_ne := by decide
  rows := by decide
  row := by decide
  rowKey := by
    rintro row (_ | ⟨_, _ | ⟨_, ⟨⟩⟩⟩) n cells ⟨⟩ <;> decide
  columns := by
    refine ⟨?_, ?_, ?_, ?_, ?_, trivial⟩ <;> constructor <;> decide
  recordWidth := by decide
  infos := by decide
  related := by
    rintro r ⟨⟩
    constructor <;> decide
  flags := by decide
  bytes := by decide +kernel

theorem session_mixedColumns :
    (Reader.session ⟨mixedColumns.file.bytes, 0, none⟩ mixedColumns.schema .default).map
        (fun (session : _ × Except Error (List Item)) => session.2.map fun items =>
          items.map fun item => item.map Record.values) =
      .ok (.ok [
        .ok [.scalar (.int ⟨.w16, false⟩ 5), .scalar (.int ⟨.w8, true⟩ 0xFD),
          .scalar (.int ⟨.w32, false⟩ 30),
          .array [.scalar (.int ⟨.w32, true⟩ 3), .scalar (.int ⟨.w32, true⟩ 4)],
          .scalar (.int ⟨.w32, false⟩ 7), .scalar (.int ⟨.w32, false⟩ 0)],
        .ok [.scalar (.int ⟨.w16, false⟩ 6), .scalar (.int ⟨.w8, true⟩ 15),
          .scalar (.int ⟨.w32, false⟩ 10),
          .array [.scalar (.int ⟨.w32, true⟩ 1), .scalar (.int ⟨.w32, true⟩ 2)],
          .scalar (.int ⟨.w32, false⟩ 71), .scalar (.int ⟨.w32, false⟩ 900)]]) := by
  rw [session_file fits_mixedColumns]
  rfl

end StoredTable

end ClientTable
