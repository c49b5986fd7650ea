import ClientTable.Proofs.Containment
import ClientTable.Proofs.MovedRows

namespace ClientTable

open Attempt

variable {distance : Nat} {h h' : Header}

/-- Headers that say the same about the records and about the blocks that serve all sections. The
sections may differ, and so may words that nothing is read by. -/
structure Header.Agrees (h h' : Header) : Prop where
  signature : h'.signature = h.signature
  recordCount : h'.recordCount = h.recordCount
  fieldCount : h'.fieldCount = h.fieldCount
  recordSize : h'.recordSize = h.recordSize
  flags : h'.flags = h.flags
  indexColumn : h'.indexColumn = h.indexColumn
  totalFieldCount : h'.totalFieldCount = h.totalFieldCount
  commonDataSize : h'.commonDataSize = h.commonDataSize
  fieldStorageInfoSize :
    h'.storageSizes.fieldStorageInfoSize = h.storageSizes.fieldStorageInfoSize
  palletDataSize : h'.storageSizes.palletDataSize = h.storageSizes.palletDataSize

theorem Header.Agrees.hasOffsetMap (hagree : h.Agrees h') : h'.hasOffsetMap = h.hasOffsetMap :=
  congrArg HeaderFlags.hasOffsetMap hagree.flags

/-- The announcement of the same section at a later place. -/
structure SectionHeader.Moved (distance : Nat) (s t : SectionHeader) : Prop where
  fileOffset : t.fileOffset.toNat = s.fileOffset.toNat + distance
  recordCount : t.recordCount = s.recordCount
  stringTableSize : t.stringTableSize = s.stringTableSize
  copyTableSize : t.copyTableSize = s.copyTableSize
  idListSize : t.idListSize = s.idListSize
  relationshipDataSize : t.relationshipDataSize = s.relationshipDataSize

instance (h h' : Header) : Decidable (h.Agrees h') :=
  decidable_of_iff (h'.signature = h.signature ∧ h'.recordCount = h.recordCount ∧
      h'.fieldCount = h.fieldCount ∧ h'.recordSize = h.recordSize ∧ h'.flags = h.flags ∧
      h'.indexColumn = h.indexColumn ∧ h'.totalFieldCount = h.totalFieldCount ∧
      h'.commonDataSize = h.commonDataSize ∧
      h'.storageSizes.fieldStorageInfoSize = h.storageSizes.fieldStorageInfoSize ∧
      h'.storageSizes.palletDataSize = h.storageSizes.palletDataSize)
    ⟨fun ⟨h₁, h₂, h₃, h₄, h₅, h₆, h₇, h₈, h₉, h₁₀⟩ => ⟨h₁, h₂, h₃, h₄, h₅, h₆, h₇, h₈, h₉, h₁₀⟩,
      fun ⟨h₁, h₂, h₃, h₄, h₅, h₆, h₇, h₈, h₉, h₁₀⟩ => ⟨h₁, h₂, h₃, h₄, h₅, h₆, h₇, h₈, h₉, h₁₀⟩⟩

instance (distance : Nat) (s t : SectionHeader) : Decidable (s.Moved distance t) :=
  decidable_of_iff (t.fileOffset.toNat = s.fileOffset.toNat + distance ∧
      t.recordCount = s.recordCount ∧ t.stringTableSize = s.stringTableSize ∧
      t.copyTableSize = s.copyTableSize ∧ t.idListSize = s.idListSize ∧
      t.relationshipDataSize = s.relationshipDataSize)
    ⟨fun ⟨h₁, h₂, h₃, h₄, h₅, h₆⟩ => ⟨h₁, h₂, h₃, h₄, h₅, h₆⟩,
      fun ⟨h₁, h₂, h₃, h₄, h₅, h₆⟩ => ⟨h₁, h₂, h₃, h₄, h₅, h₆⟩⟩

namespace Layout

variable (h') in
/-- Segments whose lengths are known stand behind one another wherever the first one does, as long
as there are positions for them. -/
theorem place_move {start size : Nat} {requests : List Request} {segments : List Segment}
    (hextents : ∀ r ∈ requests, ∃ count, r.2 = .bytes count)
    (hplace : place h start requests = .ok segments) (hstart : start + distance < positionLimit)
    (hinside : ∀ s ∈ segments, s.Inside size) (hsize : size + distance < positionLimit) :
    place h' (start + distance) requests = .ok (segments.map (Segment.move distance)) ∧
      ∀ s ∈ segments, s.stop + distance < positionLimit := by
  induction requests generalizing start segments with
  | nil =>
      cases hplace
      exact ⟨rfl, nofun⟩
  | cons request requests ih =>
      obtain ⟨kind, extent⟩ := request
      obtain ⟨count, rfl⟩ := hextents _ (List.mem_cons_self ..)
      obtain ⟨length, hlength, hplace⟩ := bind_eq_ok.mp hplace
      cases hlength
      dsimp only at hplace
      split at hplace
      case isTrue => cases hplace
      case isFalse =>
        obtain ⟨rest, hrest, hplace⟩ := bind_eq_ok.mp hplace
        cases hplace
        -- A segment of no bytes need not lie within the file, but it does not push on the next one.
        have hroom : start + count + distance < positionLimit := by
          rcases hinside _ (List.mem_cons_self ..) with hzero | hstop
          · dsimp only at hzero
            omega
          · dsimp only [Segment.stop] at hstop
            omega
        obtain ⟨hmoved, hothers⟩ := ih (fun r hr => hextents r (List.mem_cons_of_mem _ hr)) hrest
          hroom fun s hs => hinside s (List.mem_cons_of_mem _ hs)
        have hnext : start + distance + count = start + count + distance := by omega
        refine ⟨?_, List.forall_mem_cons.mpr ⟨hroom, hothers⟩⟩
        rw [place]
        change (if positionLimit ≤ start + distance + count then throw _ else _) = _
        rw [hnext, if_neg (by omega), hmoved]
        rfl

theorem sectionRequests_of_moved (hagree : h.Agrees h') (hfixed : h.hasOffsetMap = false)
    {s t : SectionHeader} (hmoved : s.Moved distance t) :
    sectionRequests h' t = sectionRequests h s := by
  unfold sectionRequests recordArea stringsOrOffsets
  rw [hagree.hasOffsetMap, hfixed, hagree.recordSize, hmoved.recordCount, hmoved.stringTableSize,
    hmoved.idListSize, hmoved.copyTableSize, hmoved.relationshipDataSize]
  rfl

theorem bytes_of_sectionRequests (hfixed : h.hasOffsetMap = false) (s : SectionHeader) :
    ∀ r ∈ sectionRequests h s, ∃ count, r.2 = .bytes count := by
  unfold sectionRequests recordArea stringsOrOffsets
  rw [hfixed]
  simp [sized]

variable {source target : Source}

/-- A section is carried along if its segments are. -/
theorem carried_of_planSection (hagree : h.Agrees h') (hfixed : h.hasOffsetMap = false)
    {s t : SectionHeader} (hmoved : s.Moved distance t) {index : Nat} {layout : SectionLayout}
    (hplan : planSection h index s = .ok layout)
    (hcarries : ∀ segment ∈ layout.segments, source.Carries distance target segment)
    (hinside : ∀ segment ∈ layout.segments, segment.Inside source.size)
    (hsize : source.size + distance < positionLimit) (index' : Nat) :
    ∃ layout', planSection h' index' t = .ok layout' ∧
      layout.Carried distance source target h layout' := by
  have hplanned := planned_of_planSection hfixed hplan
  obtain ⟨segments, hplace, hplan⟩ := bind_eq_ok.mp hplan
  cases hplan
  have hstart : s.fileOffset.toNat + distance < positionLimit := by
    rw [← hmoved.fileOffset]
    exact t.fileOffset.toNat_lt.trans (by decide)
  obtain ⟨htarget, hroom⟩ := place_move h' (bytes_of_sectionRequests hfixed s) hplace
    hstart hinside hsize
  refine ⟨⟨index', t.recordCount, segments.map (Segment.move distance)⟩, ?_,
    ⟨hmoved.recordCount, rfl⟩, hcarries, hroom, hplanned.area⟩
  unfold planSection
  rw [sectionRequests_of_moved hagree hfixed hmoved, hmoved.fileOffset, htarget]
  rfl

theorem carried_of_planSections (hagree : h.Agrees h') (hfixed : h.hasOffsetMap = false)
    {headers headers' : List SectionHeader}
    (hmoved : List.Forall₂ (SectionHeader.Moved distance) headers headers') {index : Nat}
    {layouts : List SectionLayout} (hplan : planSections h index headers = .ok layouts)
    (hcarries : ∀ layout ∈ layouts, ∀ segment ∈ layout.segments,
      source.Carries distance target segment)
    (hinside : ∀ layout ∈ layouts, ∀ segment ∈ layout.segments, segment.Inside source.size)
    (hsize : source.size + distance < positionLimit) (index' : Nat) :
    ∃ layouts', planSections h' index' headers' = .ok layouts' ∧
      List.Forall₂ (SectionLayout.Carried distance source target h) layouts layouts' := by
  induction hmoved generalizing index index' layouts with
  | nil =>
      cases hplan
      exact ⟨[], rfl, List.Forall₂.nil⟩
  | cons hfirst _ ih =>
      obtain ⟨first, hplanFirst, hplan⟩ := bind_eq_ok.mp hplan
      obtain ⟨others, hplanOthers, hplan⟩ := bind_eq_ok.mp hplan
      cases hplan
      obtain ⟨hcarriesFirst, hcarriesOthers⟩ := List.forall_mem_cons.mp hcarries
      obtain ⟨hinsideFirst, hinsideOthers⟩ := List.forall_mem_cons.mp hinside
      obtain ⟨first', htarget, hcarried⟩ := carried_of_planSection hagree hfixed hfirst hplanFirst
        hcarriesFirst hinsideFirst hsize index'
      obtain ⟨others', htargets, hcarriedOthers⟩ := ih hplanOthers hcarriesOthers hinsideOthers
        (index' + 1)
      refine ⟨first' :: others', ?_, List.Forall₂.cons hcarried hcarriedOthers⟩
      exact bind_eq_ok.mpr ⟨first', htarget, bind_eq_ok.mpr ⟨others', htargets, rfl⟩⟩

theorem sharedRequests_of_agrees (hagree : h.Agrees h') : sharedRequests h' = sharedRequests h := by
  unfold sharedRequests
  rw [hagree.totalFieldCount, hagree.fieldStorageInfoSize, hagree.palletDataSize,
    hagree.commonDataSize]

theorem bytes_of_sharedRequests (h : Header) :
    ∀ r ∈ sharedRequests h, ∃ count, r.2 = .bytes count := by
  simp [sharedRequests, sized, words]

end Layout

theorem CommonTable.follows_read {source target : Source} {s : Segment}
    (hagree : h.Agrees h') (hcarries : source.Carries distance target s)
    (descriptors : List Descriptor) :
    Reading.Follows Eq (read source s h descriptors)
      (read target (s.move distance) h' descriptors) := by
  refine hcarries.follows_readSegment.bind_eq fun block => ?_
  rw [hagree.signature, hagree.fieldCount, hagree.totalFieldCount]
  dsimp only
  split
  · exact (respects_lift _).follows.bind_eq fun _ => follows_pure rfl
  · exact (respects_lift _).follows.bind_eq fun _ => follows_pure rfl

/-- The blocks that serve all sections have been carried along to another file. -/
structure Layout.SharedCarried (distance : Nat) (source target : Source) (layout layout' : Layout) :
    Prop where
  shared : layout'.shared = layout.shared.map (Segment.move distance)
  carries : ∀ s ∈ layout.shared, source.Carries distance target s

theorem Layout.SharedCarried.findShared? {source target : Source} {layout layout' : Layout}
    (hshared : layout.SharedCarried distance source target layout') (kind : SegmentKind) :
    layout'.findShared? kind = (layout.findShared? kind).map (Segment.move distance) := by
  unfold Layout.findShared?
  rw [hshared.shared, Segment.find?_map_move]

section

variable {source target : Source} {layout layout' : Layout}

namespace Descriptor

theorem follows_readFieldInfos (hshared : layout.SharedCarried distance source target layout') :
    Reading.Follows Eq (readFieldInfos source layout) (readFieldInfos target layout') := by
  unfold readFieldInfos
  rw [hshared.findShared?]
  cases hfind : layout.findShared? .fieldInfo with
  | none => exact follows_pure rfl
  | some segment =>
      exact (hshared.carries segment (List.mem_of_find?_eq_some hfind)).follows_readSegment.bind_eq
        fun _ => (respects_lift _).follows

theorem follows_readStorageInfos (hshared : layout.SharedCarried distance source target layout') :
    Reading.Follows Eq (readStorageInfos source layout) (readStorageInfos target layout') := by
  unfold readStorageInfos
  rw [hshared.findShared?]
  cases hfind : layout.findShared? .fieldStorageInfo with
  | none => exact follows_pure rfl
  | some segment =>
      have hcarries := hshared.carries segment (List.mem_of_find?_eq_some hfind)
      change Reading.Follows _ _ (if segment.length % StorageInfo.entrySize ≠ 0 then _ else _)
      dsimp only
      split
      · exact follows_throw _ _
      · exact hcarries.follows_readSegment.bind_eq fun _ => (respects_lift _).follows

theorem follows_readAll (hagree : h.Agrees h') (hsignature : h.signature = .wdc2)
    (hshared : layout.SharedCarried distance source target layout')
    (hrelated : hasRelationships layout' = hasRelationships layout) (schema : Schema) :
    Reading.Follows Eq (readAll source h layout schema) (readAll target h' layout' schema) := by
  have hcolumns : Reading.Follows Eq (readColumns source h layout schema)
      (readColumns target h' layout' schema) := by
    unfold readColumns
    rw [hagree.signature, hsignature]
    exact (follows_readFieldInfos hshared).bind_eq fun _ =>
      (follows_readStorageInfos hshared).bind_eq fun _ => (respects_lift _).follows
  have hbits : h'.recordBits = h.recordBits := by
    unfold Header.recordBits
    rw [hagree.recordSize]
  refine hcolumns.bind_eq fun columns => ?_
  have hcolumn : relationshipColumn h' = relationshipColumn h := by
    unfold relationshipColumn recordEnd
    rw [hbits, hagree.recordSize]
  have hcheck (descriptors : List Descriptor) :
      checkWidth h' descriptors = checkWidth h descriptors := by
    unfold checkWidth
    rw [hbits, hagree.hasOffsetMap]
  simp only [hrelated, hcolumn, hcheck]
  split
  · exact (respects_lift _).follows.bind_eq fun _ => (follows_pure rfl).bind_eq fun _ =>
      (respects_lift _).follows.bind_eq fun _ => follows_pure rfl
  · exact (follows_pure rfl).bind_eq fun _ => (respects_lift _).follows.bind_eq fun _ =>
      follows_pure rfl

end Descriptor

namespace SharedTables

theorem follows_read {m m' : Metadata} (hagree : h.Agrees h')
    (hheader : m.header = some h) (hheader' : m'.header = some h')
    (hshared : m.layout.SharedCarried distance source target m'.layout)
    (hdescriptors : m'.descriptors = m.descriptors) :
    Reading.Follows Eq (read source m) (read target m') := by
  have hpallet : Reading.Follows Eq (readPallet source m.layout) (readPallet target m'.layout) := by
    unfold readPallet
    rw [hshared.findShared?]
    cases hfind : m.layout.findShared? .palletData with
    | none => exact follows_pure rfl
    | some segment =>
        exact (PalletTable.follows_read (hshared.carries segment
          (List.mem_of_find?_eq_some hfind))).bind_eq fun _ => follows_pure rfl
  have hcommon : Reading.Follows Eq (readCommon source m h) (readCommon target m' h') := by
    unfold readCommon
    rw [hshared.findShared?, hdescriptors]
    cases hfind : m.layout.findShared? .commonData with
    | none => exact follows_pure rfl
    | some segment =>
        exact (CommonTable.follows_read hagree (hshared.carries segment
          (List.mem_of_find?_eq_some hfind)) _).bind_eq fun _ => follows_pure rfl
  unfold read
  rw [hheader, hheader']
  exact hpallet.bind_eq fun _ => hcommon.bind_eq fun _ => follows_pure rfl

end SharedTables

end

end ClientTable
