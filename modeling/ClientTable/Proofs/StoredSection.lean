import ClientTable.Proofs.Tables

namespace ClientTable

open Attempt

/-- The contents of one section, in which the records have one size. -/
structure StoredSection where
  tactKeyHash : UInt64
  rows : List Bytes
  strings : Bytes
  keys : List UInt32
  copies : List Copy

namespace StoredSection

def pieces (s : StoredSection) : List Layout.Piece :=
  [(.records, s.rows.flatten),
    (.stringBlock, s.strings),
    (.indexTable, s.keys.flatMap wordBytes),
    (.copyTable, s.copies.flatMap Copy.bytes),
    (.relationshipTable, [])]

def bytes (s : StoredSection) : Bytes :=
  Layout.pieceBytes s.pieces

/-- The announcement of the section that starts at a position. -/
def announcement (start : Nat) (s : StoredSection) : SectionHeader where
  tactKeyHash := s.tactKeyHash
  fileOffset := UInt32.ofNat start
  recordCount := UInt32.ofNat s.rows.length
  stringTableSize := UInt32.ofNat s.strings.length
  copyTableSize := UInt32.ofNat (s.copies.flatMap Copy.bytes).length
  offsetMapOffset := 0
  idListSize := UInt32.ofNat (s.keys.flatMap wordBytes).length
  relationshipDataSize := 0

def layout (index start : Nat) (s : StoredSection) : SectionLayout :=
  ⟨index, UInt32.ofNat s.rows.length, Layout.backToBack start s.pieces⟩

def opened (intern : Bool) (recordSize : UInt32) (index start : Nat) (s : StoredSection) :
    Section where
  index := index
  rows := .fixed start recordSize.toNat s.rows.length 0
  isVariable := false
  hasRelativeStrings := true
  strings := .ofBytes s.strings intern
  stringBlockStart := start + s.rows.flatten.length
  keys := Section.keyTable s.keys
  copies := ⟨s.copies⟩
  relationships := none
  pending := none

structure Fits (recordSize : UInt32) (s : StoredSection) : Prop where
  rows : s.rows.length < wordLimit
  row : ∀ row ∈ s.rows, row.length = recordSize.toNat
  strings : s.strings.length < wordLimit
  keys : (s.keys.flatMap wordBytes).length < wordLimit
  keyCount : s.keys ≠ [] → s.keys.length = s.rows.length
  copies : (s.copies.flatMap Copy.bytes).length < wordLimit

variable {recordSize : UInt32} {s : StoredSection} {h : Header} {index start : Nat}

theorem nodup_kinds (s : StoredSection) : (s.pieces.map Prod.fst).Nodup := by
  change [SegmentKind.records, .stringBlock, .indexTable, .copyTable, .relationshipTable].Nodup
  decide

theorem sectionRequests_announcement (hfits : s.Fits h.recordSize)
    (hflags : h.hasOffsetMap = false) (start : Nat) :
    Layout.sectionRequests h (s.announcement start) = s.pieces.map Layout.request := by
  have hrecords : (s.announcement start).recordCount.toNat * h.recordSize.toNat =
      s.rows.flatten.length := by
    rw [length_flatten_of_length hfits.row]
    exact congrArg (· * h.recordSize.toNat) (toNat_ofNat_of_lt hfits.rows)
  have hstrings : (s.announcement start).stringTableSize.toNat = s.strings.length :=
    toNat_ofNat_of_lt hfits.strings
  have hkeys : (s.announcement start).idListSize.toNat = _ := toNat_ofNat_of_lt hfits.keys
  have hcopies : (s.announcement start).copyTableSize.toNat = _ := toNat_ofNat_of_lt hfits.copies
  have hrelationships : (s.announcement start).relationshipDataSize.toNat = ([] : Bytes).length :=
    rfl
  unfold Layout.sectionRequests Layout.recordArea Layout.stringsOrOffsets Layout.sized pieces
  simp only [hflags, hrecords, hstrings, hkeys, hcopies, hrelationships, List.map_cons,
    List.map_nil, Layout.request, Bool.false_eq_true, if_false]

theorem planSection_announcement (hfits : s.Fits h.recordSize) (hflags : h.hasOffsetMap = false)
    (hstart : start < wordLimit) (hend : start + s.bytes.length < positionLimit) (index : Nat) :
    Layout.planSection h index (s.announcement start) = .ok (s.layout index start) := by
  have hoffset : (s.announcement start).fileOffset.toNat = start := toNat_ofNat_of_lt hstart
  unfold Layout.planSection
  rw [sectionRequests_announcement hfits hflags, hoffset, Layout.place_pieces h hend]
  rfl

variable {source : Source}

theorem finds_layout (hholds : source.Holds start s.bytes) {kind : SegmentKind} {bytes : Bytes}
    (hmem : (kind, bytes) ∈ s.pieces) :
    source.Finds ((s.layout index start).find? kind) bytes :=
  Layout.finds_backToBack hholds s.nodup_kinds hmem

theorem isSome_indexTable (hholds : source.Holds start s.bytes) :
    ((s.layout index start).find? .indexTable).isSome = (Section.keyTable s.keys).isSome :=
  Section.isSome_keyTable (finds_layout hholds (by simp [pieces]))

theorem isSome_relationshipTable (hholds : source.Holds start s.bytes) :
    ((s.layout index start).find? .relationshipTable).isSome = false := by
  have hnone : source.Finds ((s.layout index start).find? .relationshipTable) [] :=
    finds_layout hholds (by simp [pieces])
  exact hnone.isSome_eq

theorem stringBlockStart_layout (index start : Nat) (s : StoredSection) :
    (((s.layout index start).find? .stringBlock).map Segment.start).getD
      (start + s.rows.flatten.length) = start + s.rows.flatten.length := by
  have hkinds : ((s.layout index start).segments.map Segment.kind).Nodup := by
    change ((Layout.backToBack start s.pieces).map Segment.kind).Nodup
    rw [Layout.map_kind_backToBack]
    exact s.nodup_kinds
  have hfind : (s.layout index start).find? .stringBlock = Option.filter Segment.isPresent
      (some ⟨.stringBlock, start + s.rows.flatten.length, s.strings.length⟩) :=
    Segment.find?_eq_filter hkinds .stringBlock
  rw [hfind]
  cases hpresent : Segment.isPresent
    ⟨.stringBlock, start + s.rows.flatten.length, s.strings.length⟩ with
  | true =>
      rw [Option.filter_some_pos hpresent]
      rfl
  | false =>
      rw [Option.filter_some_neg hpresent]
      rfl

/-- Opening a section that stands in the file gives its tables. -/
theorem gives_section (hfits : s.Fits h.recordSize) (hflags : h.hasOffsetMap = false)
    (hsignature : h.signature = .wdc2) (hholds : source.Holds start s.bytes) (intern : Bool)
    (index : Nat) :
    Gives (fun _ => True) (Section.read source h (s.layout index start) intern)
      (s.opened intern h.recordSize index start) := by
  have hcount : (s.layout index start).recordCount.toNat = s.rows.length :=
    toNat_ofNat_of_lt hfits.rows
  have hstrings : source.Finds ((s.layout index start).find? .stringBlock) s.strings :=
    finds_layout hholds (by simp [pieces])
  have hkeys : source.Finds ((s.layout index start).find? .indexTable)
      (s.keys.flatMap wordBytes) := finds_layout hholds (by simp [pieces])
  have hcopies : source.Finds ((s.layout index start).find? .copyTable)
      (s.copies.flatMap Copy.bytes) := finds_layout hholds (by simp [pieces])
  have hrelated : source.Finds ((s.layout index start).find? .relationshipTable)
      (((none : Option RelationshipBlock).map RelationshipBlock.bytes).getD []) :=
    finds_layout hholds (by simp [pieces])
  have hfind : (s.layout index start).segments.find? (fun s => s.kind = .records) =
      some ⟨.records, start, s.rows.flatten.length⟩ := rfl
  have hkeyCount : s.keys ≠ [] → s.keys.length = (s.layout index start).recordCount.toNat := by
    rw [hcount]
    exact hfits.keyCount
  have hstorage : h.signature.hasStorageInfo = true := by
    rw [hsignature]
    rfl
  have hread := Section.gives_read hflags hstorage hfind hstrings hkeys hkeyCount hcopies hrelated
    (fun b hb => by cases hb) intern
  rw [hcount, hsignature, Segment.stop, stringBlockStart_layout] at hread
  exact hread

end StoredSection

/-- A section of a file, with its number and its first position. -/
structure PlacedSection where
  index : Nat
  start : Nat
  stored : StoredSection

namespace PlacedSection

def chain : (index start : Nat) → List StoredSection → List PlacedSection
  | _, _, [] => []
  | index, start, s :: sections =>
    ⟨index, start, s⟩ :: chain (index + 1) (start + s.bytes.length) sections

def announcement (p : PlacedSection) : SectionHeader :=
  p.stored.announcement p.start

def layout (p : PlacedSection) : SectionLayout :=
  p.stored.layout p.index p.start

def opened (intern : Bool) (recordSize : UInt32) (p : PlacedSection) : Section :=
  p.stored.opened intern recordSize p.index p.start

theorem length_chain (index start : Nat) (sections : List StoredSection) :
    (chain index start sections).length = sections.length := by
  induction sections generalizing index start with
  | nil => rfl
  | cons s sections ih => rw [chain, List.length_cons, ih, List.length_cons]

theorem map_stored_chain (index start : Nat) (sections : List StoredSection) :
    (chain index start sections).map stored = sections := by
  induction sections generalizing index start with
  | nil => rfl
  | cons s sections ih => rw [chain, List.map_cons, ih]

theorem stored_mem {index start : Nat} {sections : List StoredSection} {p : PlacedSection}
    (h : p ∈ chain index start sections) : p.stored ∈ sections := by
  rw [← map_stored_chain index start sections]
  exact List.mem_map_of_mem h

theorem index_lt {index start : Nat} {sections : List StoredSection} {p : PlacedSection}
    (h : p ∈ chain index start sections) : p.index < index + sections.length := by
  induction sections generalizing index start with
  | nil => cases h
  | cons s sections ih =>
      rw [List.length_cons]
      rcases List.mem_cons.mp h with rfl | hp
      · exact Nat.lt_add_of_pos_right (Nat.succ_pos _)
      · have hlt := ih hp
        omega

theorem stop_le {index start : Nat} {sections : List StoredSection} {p : PlacedSection}
    (h : p ∈ chain index start sections) :
    p.start + p.stored.bytes.length ≤
      start + (sections.flatMap StoredSection.bytes).length := by
  induction sections generalizing index start with
  | nil => cases h
  | cons s sections ih =>
      rw [List.flatMap_cons, List.length_append, ← Nat.add_assoc]
      rcases List.mem_cons.mp h with rfl | hp
      · exact Nat.le_add_right ..
      · exact ih hp

theorem holds_chain {source : Source} {index start : Nat} {sections : List StoredSection}
    (h : source.Holds start (sections.flatMap StoredSection.bytes)) :
    ∀ p ∈ chain index start sections, source.Holds p.start p.stored.bytes := by
  induction sections generalizing index start with
  | nil => exact nofun
  | cons s sections ih =>
      rw [List.flatMap_cons] at h
      rintro p (_ | ⟨_, hp⟩)
      · exact h.left
      · exact ih h.right p hp

theorem planSections_chain {h : Header} (hflags : h.hasOffsetMap = false) {index start : Nat}
    {sections : List StoredSection} (hfits : ∀ s ∈ sections, s.Fits h.recordSize)
    (hstart : ∀ p ∈ chain index start sections, p.start < wordLimit)
    (hend : start + (sections.flatMap StoredSection.bytes).length < positionLimit) :
    Layout.planSections h index ((chain index start sections).map announcement) =
      .ok ((chain index start sections).map layout) := by
  induction sections generalizing index start with
  | nil => rfl
  | cons s sections ih =>
      rw [List.flatMap_cons, List.length_append] at hend
      have hnear : start + s.bytes.length < positionLimit := by omega
      have hfirst : Layout.planSection h index (s.announcement start) =
          .ok (s.layout index start) :=
        StoredSection.planSection_announcement (hfits s (List.mem_cons_self ..)) hflags
          (hstart _ (List.mem_cons_self ..)) hnear index
      have hothers := ih (fun other hother => hfits other (List.mem_cons_of_mem _ hother))
        (fun p hp => hstart p (List.mem_cons_of_mem _ hp)) (by omega)
      rw [chain, List.map_cons, Layout.planSections]
      change (Layout.planSection h index (s.announcement start) >>= fun first => _) = _
      rw [hfirst]
      change (Layout.planSections h (index + 1) _ >>= fun others => _) = _
      rw [hothers]
      rfl

end PlacedSection

end ClientTable
