import ClientTable.Proofs.Placement
import ClientTable.Section

namespace ClientTable

open Attempt

section

variable {source : Source} {found : Option Segment}

theorem Source.Finds.eq_nil_of_none {bytes : Bytes} (h : source.Finds none bytes) : bytes = [] :=
  h

theorem Source.Finds.isSome_eq {bytes : Bytes} (h : source.Finds found bytes) :
    found.isSome = decide (bytes ≠ []) := by
  cases found with
  | none =>
      rw [h.eq_nil_of_none]
      rfl
  | some segment => exact (decide_eq_true h.1).symm

theorem Source.Finds.gives_readSegment {segment : Segment} {bytes : Bytes}
    (h : source.Finds (some segment) bytes) :
    Gives (fun _ => True) (source.readSegment segment) bytes :=
  h.2.2.gives_readSegment h.2.1

theorem eq_nil_of_flatMap {α : Type} {write : α → Bytes} {size : Nat} (hpositive : 0 < size)
    (hsize : ∀ a, (write a).length = size) {items : List α} (h : items.flatMap write = []) :
    items = [] := by
  cases items with
  | nil => rfl
  | cons a items =>
      have hlength := congrArg List.length h
      rw [length_flatMap_of_length hsize, List.length_cons, List.length_nil, Nat.succ_mul]
        at hlength
      omega

theorem length_div_of_flatMap {α : Type} {write : α → Bytes} {size : Nat} (hpositive : 0 < size)
    (hsize : ∀ a, (write a).length = size) (items : List α) :
    (items.flatMap write).length / size = items.length ∧
      (items.flatMap write).length % size = 0 := by
  rw [length_flatMap_of_length hsize]
  exact ⟨Nat.mul_div_cancel _ hpositive, Nat.mul_mod_left _ _⟩

theorem Block.entryCount_of_flatMap {α : Type} {write : α → Bytes} {size : Nat}
    (hpositive : 0 < size) (hsize : ∀ a, (write a).length = size) (items : List α)
    (block : Block) : block.entryCount (items.flatMap write).length size = .ok items.length := by
  obtain ⟨hcount, hwhole⟩ := length_div_of_flatMap hpositive hsize items
  unfold entryCount
  rw [hwhole, hcount]
  rfl

theorem Descriptor.commonColumns_of_lt {h : Header} (hnarrow : h.recordBits < wordLimit) :
    commonColumns h = .ok (List.replicate (h.totalFieldCount.toNat - h.fieldCount.toNat)
      ⟨h.recordBits, 32, 1, .common 0 .none⟩) := by
  unfold commonColumns recordEnd
  rw [if_neg (Nat.not_le.mpr hnarrow)]
  rfl

theorem Descriptor.relationshipColumn_of_lt {h : Header} (hnarrow : h.recordBits < wordLimit) :
    relationshipColumn h = .ok ⟨h.recordBits, 32, 1, .relationship⟩ := by
  unfold relationshipColumn recordEnd
  rw [if_neg (Nat.not_le.mpr hnarrow)]
  rfl

theorem Descriptor.gives_readFieldInfos {layout : Layout} {fields : List FieldInfo}
    (h : source.Finds (layout.findShared? .fieldInfo) (fields.flatMap FieldInfo.bytes)) :
    Gives (fun _ => True) (readFieldInfos source layout) fields := by
  unfold readFieldInfos
  cases hfound : layout.findShared? .fieldInfo with
  | none =>
      rw [hfound] at h
      rw [eq_nil_of_flatMap (by decide) FieldInfo.length_bytes h]
      exact gives_pure []
  | some segment =>
      rw [hfound] at h
      have hcount := (length_div_of_flatMap (by decide) FieldInfo.length_bytes fields).1
      refine h.gives_readSegment.bind (gives_lift ?_)
      rw [h.2.1, hcount]
      exact (Parse.reads_many FieldInfo.reads_parse 0 fields).decode

theorem Descriptor.gives_readStorageInfos {layout : Layout} {infos : List StorageInfo}
    (h : source.Finds (layout.findShared? .fieldStorageInfo)
      (infos.flatMap StorageInfo.bytes)) :
    Gives (fun _ => True) (readStorageInfos source layout) infos := by
  unfold readStorageInfos
  cases hfound : layout.findShared? .fieldStorageInfo with
  | none =>
      rw [hfound] at h
      rw [eq_nil_of_flatMap (by decide) StorageInfo.length_bytes h]
      exact gives_pure []
  | some segment =>
      rw [hfound] at h
      obtain ⟨hcount, hwhole⟩ :=
        length_div_of_flatMap (by decide) StorageInfo.length_bytes infos
      have hentries : ¬ segment.length % StorageInfo.entrySize ≠ 0 := by
        rw [h.2.1, hwhole]
        exact fun hne => hne rfl
      dsimp only
      rw [if_neg hentries]
      refine h.gives_readSegment.bind (gives_lift ?_)
      rw [h.2.1, hcount]
      exact (Parse.reads_many StorageInfo.reads_parse 0 infos).decode

theorem Descriptor.gives_readColumns {h : Header} (hstorage : h.signature.hasStorageInfo = true)
    {layout : Layout} {fields : List FieldInfo} {infos : List StorageInfo}
    (hfields : source.Finds (layout.findShared? .fieldInfo) (fields.flatMap FieldInfo.bytes))
    (hinfos : source.Finds (layout.findShared? .fieldStorageInfo)
      (infos.flatMap StorageInfo.bytes)) {columns : List Descriptor}
    (hcolumns : StorageInfo.descriptors fields 0 ⟨0, 0⟩ infos = .ok columns) (schema : Schema) :
    Gives (fun _ => True) (readColumns source h layout schema) columns := by
  unfold readColumns
  cases hsignature : h.signature with
  | wdc1 | wdc2 =>
      exact (gives_readFieldInfos hfields).bind
        ((gives_readStorageInfos hinfos).bind (gives_lift hcolumns))
  | _ =>
      rw [hsignature] at hstorage
      cases hstorage

theorem Signature.ne_wdb6 {signature : Signature} (h : signature.hasStorageInfo = true) :
    signature ≠ .wdb6 := by
  rintro rfl
  cases h

theorem CommonTable.columnsOfChunks_of_not_common (block : Bytes) (column : Nat)
    {descriptors : List Descriptor} (h : ∀ d ∈ descriptors, d.isCommon = false) :
    columnsOfChunks block column descriptors = .ok [] := by
  induction descriptors generalizing column with
  | nil => rfl
  | cons d descriptors ih =>
      rw [columnsOfChunks, h d (List.mem_cons_self ..)]
      exact ih (column + 1) fun other hother => h other (List.mem_cons_of_mem _ hother)

namespace SharedTables

theorem gives_readPallet {layout : Layout} {bytes : Bytes}
    (h : source.Finds (layout.findShared? .palletData) bytes) :
    ∃ pallet, Gives (fun _ => True) (readPallet source layout) pallet ∧
      (pallet = some ⟨bytes⟩ ∨ bytes = []) := by
  unfold readPallet
  cases hfound : layout.findShared? .palletData with
  | none =>
      rw [hfound] at h
      exact ⟨none, gives_pure none, Or.inr h⟩
  | some segment =>
      rw [hfound] at h
      refine ⟨some ⟨bytes⟩, ?_, Or.inl rfl⟩
      refine Gives.bind (a := ⟨bytes⟩) ?_ (gives_pure _)
      exact h.gives_readSegment.bind (gives_pure _)

theorem gives_readCommon {m : Metadata} {header : Header} {bytes : Bytes}
    {columns : List CommonColumn} (hstorage : header.signature.hasStorageInfo = true)
    (hcolumns : CommonTable.columnsOfChunks bytes 0 m.descriptors = .ok columns)
    (h : source.Finds (m.layout.findShared? .commonData) bytes) :
    ∃ common, Gives (fun _ => True) (readCommon source m header) common ∧
      (common = some ⟨columns⟩ ∨ common = none ∧ bytes = []) := by
  unfold readCommon
  cases hfound : m.layout.findShared? .commonData with
  | none =>
      rw [hfound] at h
      exact ⟨none, gives_pure none, Or.inr ⟨rfl, h⟩⟩
  | some segment =>
      rw [hfound] at h
      refine ⟨some ⟨columns⟩, ?_, Or.inl rfl⟩
      refine Gives.bind (a := ⟨columns⟩) ?_ (gives_pure _)
      refine h.gives_readSegment.bind ?_
      rw [if_neg (Signature.ne_wdb6 hstorage)]
      exact (gives_lift hcolumns).bind (gives_pure _)

theorem exists_readCommon {m : Metadata} {header : Header} (hsignature : header.signature = .wdb6)
    (hcolumns : header.totalFieldCount.toNat - header.fieldCount.toNat = 0) {bytes : Bytes}
    (h : source.Finds (m.layout.findShared? .commonData) bytes) :
    ∃ common, Gives (fun _ => True) (readCommon source m header) common := by
  unfold readCommon
  cases hfound : m.layout.findShared? .commonData with
  | none => exact ⟨none, gives_pure none⟩
  | some segment =>
      rw [hfound] at h
      refine ⟨some ⟨[]⟩, Gives.bind (a := ⟨[]⟩) ?_ (gives_pure _)⟩
      apply h.gives_readSegment.bind
      rw [if_pos hsignature]
      dsimp only
      rw [hcolumns]
      exact gives_pure _

theorem gives_readCommon_none {m : Metadata} {header : Header}
    (hfound : m.layout.findShared? .commonData = none) :
    Gives (fun _ => True) (readCommon source m header) none := by
  unfold readCommon
  rw [hfound]
  exact gives_pure none

theorem gives_read_of_common {m : Metadata} {header : Header} (hheader : m.header = some header)
    (hpallet : m.layout.findShared? .palletData = none) {common : Option CommonTable}
    (hcommon : Gives (fun _ => True) (readCommon source m header) common) :
    Gives (fun _ => True) (read source m) ⟨none, common⟩ := by
  unfold read readPallet
  rw [hheader, hpallet]
  exact (gives_pure none).bind (hcommon.bind (gives_pure _))

theorem exists_read {m : Metadata} {header : Header} (hheader : m.header = some header)
    (hstorage : header.signature.hasStorageInfo = true) {pallet common : Bytes}
    (hpallet : source.Finds (m.layout.findShared? .palletData) pallet)
    (hcommon : source.Finds (m.layout.findShared? .commonData) common)
    {columns : List CommonColumn}
    (hcolumns : CommonTable.columnsOfChunks common 0 m.descriptors = .ok columns) :
    ∃ shared, Gives (fun _ => True) (read source m) shared ∧
      (shared.pallet = some ⟨pallet⟩ ∨ pallet = []) ∧
      (shared.common = some ⟨columns⟩ ∨ shared.common = none ∧ common = []) := by
  obtain ⟨palletTable, hreadPallet, hblock⟩ := gives_readPallet hpallet
  obtain ⟨commonTable, hreadCommon, hchunks⟩ := gives_readCommon hstorage hcolumns hcommon
  refine ⟨⟨palletTable, commonTable⟩, ?_, hblock, hchunks⟩
  unfold read
  rw [hheader]
  exact hreadPallet.bind (hreadCommon.bind (gives_pure _))

end SharedTables

namespace Section

variable {layout : SectionLayout}

theorem gives_readCopies {copies : List Copy}
    (h : source.Finds (layout.find? .copyTable) (copies.flatMap Copy.bytes)) :
    Gives (fun _ => True) (readCopies source layout) ⟨copies⟩ := by
  unfold readCopies
  cases hfound : layout.find? .copyTable with
  | none =>
      rw [hfound] at h
      rw [eq_nil_of_flatMap (by decide) Copy.length_bytes h]
      exact gives_pure _
  | some segment =>
      rw [hfound] at h
      have hcount : Block.copyTable.entryCount segment.length CopyTable.entrySize =
          .ok copies.length := by
        rw [h.2.1]
        exact Block.entryCount_of_flatMap (by decide) Copy.length_bytes copies _
      refine (gives_lift hcount).bind (h.gives_readSegment.bind ?_)
      exact (gives_lift (Parse.reads_many Copy.reads_parse 0 copies).decode).bind (gives_pure _)

/-- The keys of all records of a section, or none of them. -/
def keyTable (keys : List UInt32) : Option IndexTable :=
  if keys = [] then none else some ⟨keys⟩

theorem isSome_keyTable {found : Option Segment} {keys : List UInt32}
    (h : source.Finds found (keys.flatMap wordBytes)) :
    found.isSome = (keyTable keys).isSome := by
  rw [h.isSome_eq, keyTable]
  cases keys <;> rfl

theorem gives_readKeys {keys : List UInt32}
    (hlength : keys ≠ [] → keys.length = layout.recordCount.toNat)
    (h : source.Finds (layout.find? .indexTable) (keys.flatMap wordBytes)) :
    Gives (fun _ => True) (readKeys source layout) (keyTable keys) := by
  unfold readKeys keyTable
  cases hfound : layout.find? .indexTable with
  | none =>
      rw [hfound] at h
      rw [if_pos (eq_nil_of_flatMap (by decide) length_wordBytes h)]
      exact gives_pure none
  | some segment =>
      rw [hfound] at h
      have hne : keys ≠ [] := by
        rintro rfl
        exact h.1 rfl
      have hcount : Block.indexTable.entryCount segment.length 4 = .ok keys.length := by
        rw [h.2.1]
        exact Block.entryCount_of_flatMap (by decide) length_wordBytes keys _
      have hsame : ¬ keys.length ≠ layout.recordCount.toNat := fun hother => hother (hlength hne)
      rw [if_neg hne]
      refine Gives.bind (a := ⟨keys⟩) ?_ (gives_pure _)
      refine (gives_lift hcount).bind ?_
      dsimp only
      rw [if_neg hsame]
      refine h.gives_readSegment.bind ?_
      exact (gives_lift (Parse.reads_many Parse.reads_u32 0 keys).decode).bind (gives_pure _)

theorem gives_readRelationships {header : Header} {block : Option RelationshipBlock}
    (hstorage : header.signature.hasStorageInfo = true)
    (hfits : ∀ b, block = some b → b.entries.length < wordLimit)
    (h : source.Finds (layout.find? .relationshipTable)
      ((block.map RelationshipBlock.bytes).getD [])) :
    Gives (fun _ => True) (readRelationships source header layout)
      (block.map fun b => ⟨b.entries⟩) := by
  unfold readRelationships
  cases hfound : layout.find? .relationshipTable with
  | none =>
      rw [hfound] at h
      cases block with
      | none => exact gives_pure none
      | some b => exact absurd h.eq_nil_of_none b.bytes_ne_nil
  | some segment =>
      rw [hfound] at h
      cases block with
      | none => exact absurd rfl h.1
      | some b =>
          have hread := (RelationshipBlock.reads_parseListed (hfits b rfl) 0).decode
          refine Gives.bind (a := ⟨b.entries⟩) ?_ (gives_pure _)
          refine h.gives_readSegment.bind ?_
          rw [h.2.1]
          cases hs : header.signature with
          | wdc1 => exact gives_lift hread
          | wdc2 => exact gives_lift hread
          | _ =>
              rw [hs] at hstorage
              cases hstorage

theorem gives_readStrings {records : Segment} {bytes : Bytes} (intern : Bool)
    (h : source.Finds (layout.find? .stringBlock) bytes) :
    Gives (fun _ => True) (readStrings source layout records intern)
      (.ofBytes bytes intern,
        ((layout.find? .stringBlock).map Segment.start).getD records.stop) := by
  unfold readStrings
  cases hfound : layout.find? .stringBlock with
  | none =>
      rw [hfound] at h
      rw [h.eq_nil_of_none]
      exact gives_pure _
  | some segment =>
      rw [hfound] at h
      refine Gives.bind (a := .ofBytes bytes intern) ?_ (gives_pure _)
      exact h.gives_readSegment.bind (gives_pure _)

/-- Opening a section gives its rows and the tables that its segments hold. -/
theorem gives_read_of {header : Header} {records : Segment}
    (hrecords : layout.segments.find? (fun s => s.kind = .records) = some records)
    {rows : RowCursor}
    (hrows : Gives (fun _ => True) (readRows source header layout records) rows)
    {strings : Bytes} (hstrings : source.Finds (layout.find? .stringBlock) strings)
    {keys : List UInt32} (hkeys : source.Finds (layout.find? .indexTable) (keys.flatMap wordBytes))
    (hlength : keys ≠ [] → keys.length = layout.recordCount.toNat) {copies : List Copy}
    (hcopies : source.Finds (layout.find? .copyTable) (copies.flatMap Copy.bytes))
    {relationships : Option RelationshipTable}
    (hrelated : Gives (fun _ => True) (readRelationships source header layout) relationships)
    (intern : Bool) :
    Gives (fun _ => True) (read source header layout intern) {
      index := layout.index
      rows
      isVariable := header.hasOffsetMap
      hasRelativeStrings := header.signature.hasRelativeStrings
      strings := .ofBytes strings intern
      stringBlockStart :=
        ((layout.find? .stringBlock).map Segment.start).getD records.stop
      keys := keyTable keys
      copies := ⟨copies⟩
      relationships
      pending := none } := by
  unfold read
  rw [hrecords]
  apply (gives_readStrings intern hstrings).bind
  apply hrows.bind
  apply (gives_readKeys hlength hkeys).bind
  apply (gives_readCopies hcopies).bind
  exact hrelated.bind (gives_pure _)

theorem gives_readRows_fixed {header : Header} (hflags : header.hasOffsetMap = false)
    (records : Segment) :
    Gives (fun _ => True) (readRows source header layout records)
      (.fixed records.start header.recordSize.toNat layout.recordCount.toNat 0) := by
  unfold readRows
  rw [hflags]
  exact gives_pure _

theorem gives_readRows_located {header : Header} (hflags : header.hasOffsetMap = true)
    {records : Segment} {slots used : List RowLocation} (hne : slots ≠ [])
    (hslots : source.Finds (layout.find? .offsetMap) (slots.flatMap RowLocation.bytes))
    (hselect : RowLocation.select records layout.recordCount slots = .ok used) :
    Gives (fun _ => True) (readRows source header layout records) (.located used 0) := by
  unfold readRows
  rw [hflags, if_pos rfl]
  cases hfound : layout.find? .offsetMap with
  | none =>
      rw [hfound] at hslots
      exact absurd (eq_nil_of_flatMap (by decide) RowLocation.length_bytes hslots) hne
  | some segment =>
      rw [hfound] at hslots
      have hcount : Block.offsetMap.entryCount segment.length RowLocation.entrySize =
          .ok slots.length := by
        rw [hslots.2.1]
        exact Block.entryCount_of_flatMap (by decide) RowLocation.length_bytes slots _
      have hdecode := (Parse.reads_many RowLocation.reads_parse 0 slots).decode
      have hread : Gives (fun _ => True)
          (RowLocation.readAll source segment records layout.recordCount) used := by
        apply (gives_lift hcount).bind
        apply hslots.gives_readSegment.bind
        exact (gives_lift hdecode).bind (gives_lift hselect)
      exact hread.bind (gives_pure _)

theorem gives_readRelationships_none {header : Header}
    (hfound : layout.find? .relationshipTable = none) :
    Gives (fun _ => True) (readRelationships source header layout) none := by
  unfold readRelationships
  rw [hfound]
  exact gives_pure none

/-- Opening a section whose records have one size, in a file that says how fields are stored. -/
theorem gives_read {header : Header} (hflags : header.hasOffsetMap = false)
    (hstorage : header.signature.hasStorageInfo = true) {records : Segment}
    (hrecords : layout.segments.find? (fun s => s.kind = .records) = some records)
    {strings : Bytes} (hstrings : source.Finds (layout.find? .stringBlock) strings)
    {keys : List UInt32} (hkeys : source.Finds (layout.find? .indexTable) (keys.flatMap wordBytes))
    (hlength : keys ≠ [] → keys.length = layout.recordCount.toNat) {copies : List Copy}
    (hcopies : source.Finds (layout.find? .copyTable) (copies.flatMap Copy.bytes))
    {block : Option RelationshipBlock}
    (hblock : source.Finds (layout.find? .relationshipTable)
      ((block.map RelationshipBlock.bytes).getD []))
    (hfits : ∀ b, block = some b → b.entries.length < wordLimit) (intern : Bool) :
    Gives (fun _ => True) (read source header layout intern) {
      index := layout.index
      rows := .fixed records.start header.recordSize.toNat layout.recordCount.toNat 0
      isVariable := false
      hasRelativeStrings := header.signature.hasRelativeStrings
      strings := .ofBytes strings intern
      stringBlockStart :=
        ((layout.find? .stringBlock).map Segment.start).getD records.stop
      keys := keyTable keys
      copies := ⟨copies⟩
      relationships := block.map fun b => ⟨b.entries⟩
      pending := none } := by
  have hread := gives_read_of hrecords (gives_readRows_fixed hflags records) hstrings hkeys hlength
    hcopies (gives_readRelationships hstorage hfits hblock) intern
  rw [hflags] at hread
  exact hread

end Section

end

end ClientTable
