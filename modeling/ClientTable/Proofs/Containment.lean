import ClientTable.Proofs.Projection

namespace ClientTable

open Attempt

namespace Source

def size (s : Source) : Nat :=
  (s.suffix 0).length

/-- The bytes of a segment are there. -/
def Contains (s : Source) (segment : Segment) : Prop :=
  ∃ bytes, s.block segment.start segment.length = .ok bytes

theorem stop_le_of_block {s : Source} {start length : Nat} {bytes : Bytes}
    (h : s.block start length = .ok bytes) (hlength : 0 < length) : start + length ≤ s.size := by
  obtain ⟨hfound, hbytes⟩ := block_eq_ok_iff.mp h
  have hsuffix : (s.suffix start).length = s.size - start := by
    rw [size, ← Nat.zero_add start, suffix_add, List.length_drop, Nat.zero_add]
  rw [hbytes, found, List.length_take, hsuffix] at hfound
  omega

theorem ensures_readSegment_contains (s : Source) (segment : Segment) :
    Ensures (s.readSegment segment) fun _ => s.Contains segment :=
  fun _ _ hok => ⟨_, hok⟩

end Source

/-- A segment lies within the file if there is anything in it. -/
def Segment.Inside (size : Nat) (s : Segment) : Prop :=
  s.length = 0 ∨ s.stop ≤ size

theorem Source.Contains.inside {source : Source} {s : Segment} (h : source.Contains s) :
    s.Inside source.size := by
  obtain ⟨bytes, hblock⟩ := h
  rcases Nat.eq_zero_or_pos s.length with hzero | hpositive
  · exact Or.inl hzero
  · exact Or.inr (stop_le_of_block hblock hpositive)

section

variable {segments : List Segment} {segment : Segment}

theorem Segment.find?_kind_of_mem (hkinds : (segments.map Segment.kind).Nodup)
    (hmem : segment ∈ segments) :
    segments.find? (fun s => s.kind = segment.kind) = some segment := by
  induction segments with
  | nil => cases hmem
  | cons first segments ih =>
      obtain ⟨hfresh, hrest⟩ := List.nodup_cons.mp hkinds
      rcases List.mem_cons.mp hmem with rfl | hmem
      · exact List.find?_cons_of_pos (by simp)
      · have hother : first.kind ≠ segment.kind := by
          intro hsame
          exact hfresh (List.mem_map.mpr ⟨segment, hmem, hsame.symm⟩)
        rw [List.find?_cons_of_neg (by simpa using hother), ih hrest hmem]

theorem Segment.find?_of_mem (hkinds : (segments.map Segment.kind).Nodup)
    (hmem : segment ∈ segments) (hpresent : 0 < segment.length) :
    Segment.find? segment.kind segments = some segment := by
  rw [Segment.find?_eq_filter hkinds, Segment.find?_kind_of_mem hkinds hmem]
  exact Option.filter_some_pos (decide_eq_true hpresent)

theorem Segment.inside_of_find? {source : Source} (hkinds : (segments.map Segment.kind).Nodup)
    (hmem : segment ∈ segments)
    (hcontains : ∀ s ∈ Segment.find? segment.kind segments, source.Contains s) :
    segment.Inside source.size := by
  rcases Nat.eq_zero_or_pos segment.length with hzero | hpositive
  · exact Or.inl hzero
  · exact (hcontains segment (Segment.find?_of_mem hkinds hmem hpositive)).inside

end

theorem RelationshipTable.ensures_read_contains (source : Source) (segment : Segment)
    (signature : Signature) :
    Ensures (read source segment signature) fun _ => source.Contains segment := by
  refine (source.ensures_readSegment_contains segment).bind fun block hblock => ?_
  cases signature <;> exact ensures_lift fun _ _ => hblock

theorem CopyTable.ensures_read_contains (source : Source) (segment : Segment) :
    Ensures (read source segment) fun _ => source.Contains segment :=
  ensures_bind fun _ => (source.ensures_readSegment_contains segment).bind fun _ hblock =>
    ensures_bind fun _ => ensures_pure hblock

theorem IndexTable.ensures_read_contains (source : Source) (segment : Segment)
    (recordCount : UInt32) :
    Ensures (read source segment recordCount) fun _ => source.Contains segment := by
  refine ensures_bind fun count => ?_
  dsimp only
  split
  · exact ensures_throw_bind _ _
  · exact (source.ensures_readSegment_contains segment).bind fun _ hblock =>
      ensures_bind fun _ => ensures_pure hblock

theorem CommonTable.ensures_read_contains (source : Source) (segment : Segment) (h : Header)
    (descriptors : List Descriptor) :
    Ensures (read source segment h descriptors) fun _ => source.Contains segment := by
  refine (source.ensures_readSegment_contains segment).bind fun block hblock => ?_
  dsimp only
  split
  · exact ensures_bind fun _ => ensures_pure hblock
  · exact ensures_bind fun _ => ensures_pure hblock

namespace Section

def tableKinds : List SegmentKind :=
  [.stringBlock, .indexTable, .copyTable, .relationshipTable]

variable (source : Source) (h : Header) (layout : SectionLayout)

theorem ensures_readStrings_contains (area : Segment) (intern : Bool) :
    Ensures (readStrings source layout area intern) fun _ =>
      ∀ segment ∈ layout.find? .stringBlock, source.Contains segment := by
  unfold readStrings
  cases layout.find? .stringBlock with
  | none => exact ensures_pure nofun
  | some segment =>
      have hread : Ensures (StringTable.read source segment intern) fun _ =>
          source.Contains segment :=
        (source.ensures_readSegment_contains segment).bind fun _ hblock => ensures_pure hblock
      refine hread.bind fun _ hsegment => ensures_pure ?_
      rintro _ ⟨⟩
      exact hsegment

theorem ensures_readKeys_contains :
    Ensures (readKeys source layout) fun _ =>
      ∀ segment ∈ layout.find? .indexTable, source.Contains segment := by
  unfold readKeys
  cases layout.find? .indexTable with
  | none => exact ensures_pure nofun
  | some segment =>
      refine (IndexTable.ensures_read_contains source segment _).bind fun _ hsegment =>
        ensures_pure ?_
      rintro _ ⟨⟩
      exact hsegment

theorem ensures_readCopies_contains :
    Ensures (readCopies source layout) fun _ =>
      ∀ segment ∈ layout.find? .copyTable, source.Contains segment := by
  unfold readCopies
  cases layout.find? .copyTable with
  | none => exact ensures_pure nofun
  | some segment =>
      intro count copies hcopies
      rintro _ ⟨⟩
      exact CopyTable.ensures_read_contains source segment count copies hcopies

theorem ensures_readRelationships_contains :
    Ensures (readRelationships source h layout) fun _ =>
      ∀ segment ∈ layout.find? .relationshipTable, source.Contains segment := by
  unfold readRelationships
  cases layout.find? .relationshipTable with
  | none => exact ensures_pure nofun
  | some segment =>
      refine (RelationshipTable.ensures_read_contains source segment _).bind fun _ hsegment =>
        ensures_pure ?_
      rintro _ ⟨⟩
      exact hsegment

theorem ensures_read_contains (intern : Bool) :
    Ensures (read source h layout intern) fun _ => ∀ kind ∈ tableKinds,
      ∀ segment ∈ layout.find? kind, source.Contains segment := by
  refine (ensures_read_putTogether source h layout intern).mono fun s ⟨area, hread⟩ => ?_
  have hstrings := hread.strings.of_ensures (ensures_readStrings_contains source layout area intern)
  have hkeys := hread.keys.of_ensures (ensures_readKeys_contains source layout)
  have hcopies := hread.copies.of_ensures (ensures_readCopies_contains source layout)
  have hrelationships :=
    hread.relationships.of_ensures (ensures_readRelationships_contains source h layout)
  simp only [tableKinds, List.forall_mem_cons]
  exact ⟨hstrings, hkeys, hcopies, hrelationships, nofun⟩

end Section

/-- The segments of a section that has no offset map, as they are planned. -/
structure SectionLayout.Planned (h : Header) (layout : SectionLayout) : Prop where
  kinds : layout.segments.map Segment.kind = .records :: Section.tableKinds
  area : ∀ segment, (layout.segments.find? fun s => s.kind = .records) = some segment →
    segment.length = layout.recordCount.toNat * h.recordSize.toNat

namespace Layout

variable {h : Header}

/-- The plan of a section without an offset map. -/
theorem planned_of_planSection (hfixed : h.hasOffsetMap = false) {index : Nat} {s : SectionHeader}
    {layout : SectionLayout} (hplan : planSection h index s = .ok layout) : layout.Planned h := by
  obtain ⟨segments, hplace, hplan⟩ := bind_eq_ok.mp hplan
  cases hplan
  have hkinds := map_kind_of_place hplace
  refine ⟨?_, ?_⟩
  · rw [hkinds]
    unfold sectionRequests stringsOrOffsets
    rw [hfixed]
    rfl
  · obtain ⟨length, hlength, hplace⟩ := bind_eq_ok.mp hplace
    dsimp only at hplace
    split at hplace
    case isTrue => cases hplace
    case isFalse =>
      obtain ⟨rest, _, hplace⟩ := bind_eq_ok.mp hplace
      cases hplace
      rintro _ ⟨⟩
      rw [hfixed] at hlength
      cases hlength
      rfl

theorem planned_of_planSections (hfixed : h.hasOffsetMap = false) {headers : List SectionHeader}
    {index : Nat} {layouts : List SectionLayout}
    (hplan : planSections h index headers = .ok layouts) : ∀ layout ∈ layouts,
      layout.Planned h := by
  induction headers generalizing index layouts with
  | nil =>
      cases hplan
      exact nofun
  | cons s headers ih =>
      obtain ⟨first, hfirst, hplan⟩ := bind_eq_ok.mp hplan
      obtain ⟨others, hothers, hplan⟩ := bind_eq_ok.mp hplan
      cases hplan
      exact List.forall_mem_cons.mpr ⟨planned_of_planSection hfixed hfirst, ih hothers⟩

theorem plan_eq_ok (hsignature : h.signature = .wdc2) {layout : Layout} :
    plan h = .ok layout ↔ place h h.headerEnd (sharedRequests h) = .ok layout.shared ∧
      planSections h 0 h.sections = .ok layout.sections := by
  unfold plan
  rw [hsignature]
  dsimp only
  constructor
  · intro hplan
    obtain ⟨shared, hshared, hplan⟩ := bind_eq_ok.mp hplan
    obtain ⟨sections, hsections, hplan⟩ := bind_eq_ok.mp hplan
    cases hplan
    exact ⟨hshared, hsections⟩
  · rintro ⟨hshared, hsections⟩
    exact bind_eq_ok.mpr ⟨_, hshared, bind_eq_ok.mpr ⟨_, hsections, rfl⟩⟩

def segments (layout : Layout) : List Segment :=
  layout.shared ++ layout.sections.flatMap SectionLayout.segments

end Layout

namespace Section

variable {source : Source}

theorem inside_of_rows {area : Segment} {count stride : Nat} (harea : area.length = count * stride)
    (hrows : ∀ row ∈ (RowCursor.fixed area.start stride count 0).rows, ∃ data,
      source.block row.offset row.length = .ok data) : area.Inside source.size := by
  rcases Nat.eq_zero_or_pos area.length with hzero | hpositive
  · exact Or.inl hzero
  · right
    rw [harea] at hpositive
    obtain ⟨last, rfl⟩ : ∃ last, count = last + 1 :=
      Nat.exists_eq_succ_of_ne_zero (Nat.pos_of_mul_pos_right hpositive).ne'
    obtain ⟨data, hdata⟩ := hrows ⟨last, area.start + last * stride, stride⟩ <| by
      refine List.mem_map.mpr ⟨last, ?_, rfl⟩
      rw [List.mem_range'_1]
      omega
    have hstop := Source.stop_le_of_block hdata (Nat.pos_of_mul_pos_left hpositive)
    rw [Segment.stop, harea, Nat.succ_mul]
    dsimp only at hstop
    omega

end Section

/-- All segments of a section lie within the file if its items end without an error. -/
theorem Records.inside_of_sectionItems {r : Records} {h : Header} {layout : SectionLayout}
    (hfixed : h.hasOffsetMap = false) (hplanned : layout.Planned h)
    (herror : ∀ e, .error e ∉ r.sectionItems h layout) :
    ∀ segment ∈ layout.segments, segment.Inside r.source.size := by
  have hkinds : (layout.segments.map Segment.kind).Nodup := by
    rw [hplanned.kinds]
    decide
  intro segment hsegment
  unfold sectionItems at herror
  cases hread : (Section.read r.source h layout r.internStrings).outcome with
  | error e =>
      rw [hread] at herror
      exact absurd (List.mem_singleton_self _) (herror e)
  | ok s =>
      rw [hread] at herror
      have hkind : segment.kind ∈ SegmentKind.records :: Section.tableKinds := by
        rw [← hplanned.kinds]
        exact List.mem_map_of_mem hsegment
      -- The record area is read row by row, the tables when the section is opened.
      rcases List.mem_cons.mp hkind with hrecords | htable
      · have hfresh := Section.ensures_read r.source h layout r.internStrings 0 s hread
        obtain ⟨area, harea, hrows⟩ := hfresh.fixed hfixed
        have hfirst := Segment.find?_kind_of_mem hkinds hsegment
        rw [hrecords, harea] at hfirst
        cases hfirst
        refine Section.inside_of_rows (hplanned.area segment harea) fun row hrow => ?_
        rw [← hrows] at hrow
        cases hbase : (s.decoded r.source r.metadata r.shared row).1 with
        | error e =>
            refine absurd (List.mem_flatMap.mpr ⟨row, hrow, ?_⟩) (herror e)
            simp [Section.rowItems, hbase]
        | ok base =>
            obtain ⟨_, data, _, _, _, hdata, _⟩ := Section.exists_of_decoded hbase
            exact ⟨data, hdata⟩
      · exact Segment.inside_of_find? hkinds hsegment
          (Section.ensures_read_contains r.source h layout r.internStrings 0 s hread _ htable)

namespace Descriptor

theorem ensures_readFieldInfos_contains (source : Source) (layout : Layout) :
    Ensures (readFieldInfos source layout) fun _ =>
      ∀ segment ∈ layout.findShared? .fieldInfo, source.Contains segment := by
  unfold readFieldInfos
  cases layout.findShared? .fieldInfo with
  | none => exact ensures_pure nofun
  | some segment =>
      refine (source.ensures_readSegment_contains segment).bind fun _ hblock =>
        ensures_lift fun _ _ => ?_
      rintro _ ⟨⟩
      exact hblock

theorem ensures_readStorageInfos_contains (source : Source) (layout : Layout) :
    Ensures (readStorageInfos source layout) fun _ =>
      ∀ segment ∈ layout.findShared? .fieldStorageInfo, source.Contains segment := by
  unfold readStorageInfos
  cases layout.findShared? .fieldStorageInfo with
  | none => exact ensures_pure nofun
  | some segment =>
      dsimp only
      split
      · exact ensures_throw_bind _ _
      · refine (source.ensures_readSegment_contains segment).bind fun _ hblock =>
          ensures_lift fun _ _ => ?_
        rintro _ ⟨⟩
        exact hblock

theorem ensures_readAll_contains (source : Source) {h : Header} (hsignature : h.signature = .wdc2)
    (layout : Layout) (schema : Schema) :
    Ensures (readAll source h layout schema) fun _ =>
      ∀ kind ∈ [SegmentKind.fieldInfo, .fieldStorageInfo],
        ∀ segment ∈ layout.findShared? kind, source.Contains segment := by
  have hcolumns : Ensures (readColumns source h layout schema) fun _ =>
      ∀ kind ∈ [SegmentKind.fieldInfo, .fieldStorageInfo],
        ∀ segment ∈ layout.findShared? kind, source.Contains segment := by
    unfold readColumns
    rw [hsignature]
    refine (ensures_readFieldInfos_contains source layout).bind fun _ hinfos => ?_
    refine (ensures_readStorageInfos_contains source layout).bind fun _ hstorage =>
      ensures_lift fun _ _ => ?_
    simp only [List.forall_mem_cons]
    exact ⟨hinfos, hstorage, nofun⟩
  intro count descriptors hread
  obtain ⟨_, hcontains, _⟩ := ensures_readAll hcolumns count descriptors hread
  exact hcontains

end Descriptor

namespace SharedTables

theorem ensures_readPallet_contains (source : Source) (layout : Layout) :
    Ensures (readPallet source layout) fun _ =>
      ∀ segment ∈ layout.findShared? .palletData, source.Contains segment := by
  unfold readPallet
  cases layout.findShared? .palletData with
  | none => exact ensures_pure nofun
  | some segment =>
      have hread : Ensures (PalletTable.read source segment) fun _ => source.Contains segment :=
        (source.ensures_readSegment_contains segment).bind fun _ hblock => ensures_pure hblock
      refine hread.bind fun _ hsegment => ensures_pure ?_
      rintro _ ⟨⟩
      exact hsegment

theorem ensures_readCommon_contains (source : Source) (m : Metadata) (h : Header) :
    Ensures (readCommon source m h) fun _ =>
      ∀ segment ∈ m.layout.findShared? .commonData, source.Contains segment := by
  unfold readCommon
  cases m.layout.findShared? .commonData with
  | none => exact ensures_pure nofun
  | some segment =>
      refine (CommonTable.ensures_read_contains source segment h m.descriptors).bind
        fun _ hsegment => ensures_pure ?_
      rintro _ ⟨⟩
      exact hsegment

theorem ensures_read_contains (source : Source) {m : Metadata} {h : Header}
    (hheader : m.header = some h) :
    Ensures (read source m) fun _ => ∀ kind ∈ [SegmentKind.palletData, .commonData],
      ∀ segment ∈ m.layout.findShared? kind, source.Contains segment := by
  unfold read
  rw [hheader]
  refine (ensures_readPallet_contains source m.layout).bind fun _ hpallet => ?_
  refine (ensures_readCommon_contains source m h).bind fun _ hcommon => ensures_pure ?_
  simp only [List.forall_mem_cons]
  exact ⟨hpallet, hcommon, nofun⟩

end SharedTables

namespace Records

variable {source : Source} {m : Metadata} {h : Header} {intern : Bool} {items : List Item}

theorem exists_of_listed (hheader : m.header = some h)
    (hlisted : listed source m intern = .ok items) (herror : ∀ e, .error e ∉ items) :
    ∃ shared, (SharedTables.read source m).outcome = .ok shared ∧
      items = m.layout.sections.flatMap ((fresh source m shared intern).sectionItems h) := by
  rw [listed_eq_map] at hlisted
  cases htables : (SharedTables.read source m).outcome with
  | error e =>
      rw [htables] at hlisted
      cases hlisted
  | ok shared =>
      rw [htables] at hlisted
      obtain rfl : (fresh source m shared intern).reference = items := Except.ok.inj hlisted
      refine ⟨shared, rfl, ?_⟩
      exact (untilError_eq_self herror).trans
        (itemsOf_eq (r := fresh source m shared intern) hheader _)

theorem listed_of_sections {shared : SharedTables} (hheader : m.header = some h)
    (htables : (SharedTables.read source m).outcome = .ok shared)
    (hitems : m.layout.sections.flatMap ((fresh source m shared intern).sectionItems h) = items)
    (herror : ∀ e, .error e ∉ items) : listed source m intern = .ok items := by
  have hreference : (fresh source m shared intern).reference = items := by
    have hall := itemsOf_eq (r := fresh source m shared intern) hheader m.layout.sections
    rw [hitems] at hall
    exact (congrArg untilError hall).trans (untilError_of_not_mem herror)
  rw [listed_eq_map, htables]
  exact congrArg Except.ok hreference

/-- All segments of a sectioned file lie within it if its records are gone through without an
error. -/
theorem inside_of_listed {schema : Schema} (hsignature : h.signature = .wdc2)
    (hfixed : h.hasOffsetMap = false) (hheader : m.header = some h)
    (hplan : Layout.plan h = .ok m.layout)
    (hdescriptors : (Descriptor.readAll source h m.layout schema).outcome = .ok m.descriptors)
    (hlisted : listed source m intern = .ok items) (herror : ∀ e, .error e ∉ items) :
    ∀ segment ∈ m.layout.segments, segment.Inside source.size := by
  obtain ⟨hshared, hsections⟩ := (Layout.plan_eq_ok hsignature).mp hplan
  obtain ⟨shared, htables, rfl⟩ := exists_of_listed hheader hlisted herror
  intro segment hsegment
  rcases List.mem_append.mp hsegment with hsegment | hsegment
  · have hkinds : m.layout.shared.map Segment.kind =
        [.fieldInfo, .fieldStorageInfo] ++ [.palletData, .commonData] :=
      Layout.map_kind_of_place hshared
    have hnodup : (m.layout.shared.map Segment.kind).Nodup := by
      rw [hkinds]
      decide
    have hkind := List.mem_map_of_mem (f := Segment.kind) hsegment
    rw [hkinds] at hkind
    refine Segment.inside_of_find? hnodup hsegment ?_
    rcases List.mem_append.mp hkind with hkind | hkind
    · exact Descriptor.ensures_readAll_contains source hsignature m.layout schema 0 _
        hdescriptors _ hkind
    · exact SharedTables.ensures_read_contains source hheader 0 _ htables _ hkind
  · obtain ⟨layout, hlayout, hsegment⟩ := List.mem_flatMap.mp hsegment
    refine inside_of_sectionItems (r := fresh source m shared intern) hfixed
      (Layout.planned_of_planSections hfixed hsections layout hlayout) ?_ segment hsegment
    exact fun e he => herror e (List.mem_flatMap.mpr ⟨layout, hlayout, he⟩)

end Records

def Input.whole (i : Input) : Nat :=
  i.position + i.rest.length

namespace Parse

theorem leaves_take (count : Nat) : Leaves Input.whole (take count) := by
  intro input
  rcases Nat.lt_or_ge input.rest.length count with hlt | hle
  · rw [on_take_of_lt hlt]
    rfl
  · rw [on_take_of_le hle]
    simp only [Input.whole, List.length_drop]
    omega

theorem leaves_number (width : Nat) : Leaves Input.whole (number width) :=
  (leaves_take width).bind fun _ => leaves_pure _

theorem leaves_u16 : Leaves Input.whole u16 :=
  (leaves_number 2).bind fun _ => leaves_pure _

theorem leaves_u32 : Leaves Input.whole u32 :=
  (leaves_number 4).bind fun _ => leaves_pure _

theorem leaves_u64 : Leaves Input.whole u64 :=
  (leaves_number 8).bind fun _ => leaves_pure _

theorem leaves_many {α : Type} {item : Parse α} (h : Leaves Input.whole item) (count : Nat) :
    Leaves Input.whole (many item count) := by
  induction count with
  | zero => exact leaves_pure []
  | succ count ih => exact h.bind fun first => ih.bind fun others => leaves_pure _

end Parse

theorem Signature.leaves_parse : Leaves Input.whole Signature.parse := by
  refine (Parse.leaves_take 4).bind fun magic => ?_
  cases Signature.ofMagic? magic with
  | some signature => exact leaves_pure signature
  | none => exact leaves_throw _

theorem SectionHeader.leaves_parse : Leaves Input.whole SectionHeader.parse := by
  refine Parse.leaves_u64.bind fun _ => ?_
  iterate 7 refine Parse.leaves_u32.bind fun _ => ?_
  exact leaves_pure _

theorem Header.leaves_parseSectioned (h : Header) : Leaves Input.whole h.parseSectioned := by
  unfold parseSectioned
  iterate 5 refine Parse.leaves_u32.bind fun _ => ?_
  iterate 2 refine Parse.leaves_u16.bind fun _ => ?_
  iterate 7 refine Parse.leaves_u32.bind fun _ => ?_
  refine (Parse.leaves_many SectionHeader.leaves_parse _).bind fun sections => ?_
  dsimp only
  split
  · exact leaves_throw_bind _ _
  · exact leaves_pure _

theorem Header.ensures_parseSectioned_basic (h : Header) :
    Ensures h.parseSectioned fun parsed =>
      parsed.signature = h.signature ∧ parsed.recordCount = h.recordCount := by
  iterate 15 refine ensures_bind fun _ => ?_
  dsimp only
  split
  · exact ensures_throw_bind _ _
  · exact ensures_pure ⟨rfl, rfl⟩

theorem Header.withTotalFieldCount_basic (h : Header) :
    h.withTotalFieldCount.signature = h.signature ∧
      h.withTotalFieldCount.recordCount = h.recordCount := by
  unfold withTotalFieldCount
  split <;> exact ⟨rfl, rfl⟩

/-- The header of a sectioned file starts with the number of records, and it ends where it has been
read to. -/
theorem Header.parts_of_on_parse {input after : Input} {h : Header}
    (hrun : (Header.parse .wdc2).on input = (.ok (some h), after)) :
    h.signature = .wdc2 ∧ (Parse.u32.on input).1 = .ok h.recordCount ∧
      h.headerEnd = after.position ∧ after.whole = input.whole := by
  have hcount : Leaves Input.whole (Header.parse .wdc2) := by
    refine Parse.leaves_u32.bind fun recordCount => ?_
    dsimp only
    split
    · exact leaves_pure none
    · iterate 3 refine Parse.leaves_u32.bind fun _ => ?_
      refine Leaves.bind (Header.leaves_parseSectioned _) fun h => ?_
      exact leaves_get.bind fun _ => leaves_pure _
  have hwhole := hcount input
  rw [hrun] at hwhole
  obtain ⟨recordCount, _, hrecords, hrun⟩ := on_bind_eq_ok.mp
    (show (Parse.u32 >>= _).on input = (.ok (some h), after) from hrun)
  dsimp only at hrun
  split at hrun
  · cases hrun
  · obtain ⟨_, _, _, hrun⟩ := on_bind_eq_ok.mp hrun
    obtain ⟨_, _, _, hrun⟩ := on_bind_eq_ok.mp hrun
    obtain ⟨_, _, _, hrun⟩ := on_bind_eq_ok.mp hrun
    obtain ⟨parsed, _, hparsed, hrun⟩ := on_bind_eq_ok.mp hrun
    obtain ⟨_, _, hposition, hrun⟩ := on_bind_eq_ok.mp hrun
    cases hposition
    cases hrun
    obtain ⟨hsignature, hsame⟩ :=
      ensures_parseSectioned_basic _ _ parsed (congrArg Prod.fst hparsed)
    obtain ⟨htotal, htotal'⟩ := parsed.withTotalFieldCount_basic
    refine ⟨htotal.trans hsignature, ?_, rfl, hwhole⟩
    rw [hrecords]
    exact congrArg Except.ok (htotal'.trans hsame).symm

/-- A sectioned file starts with its signature and the number of its records, and its header ends
within it. -/
structure Source.StartsWith (source : Source) (h : Header) : Prop where
  signature : h.signature = .wdc2
  magic : (source.suffix 0).take 4 = Signature.wdc2.magic
  recordCount : (Parse.u32.on ⟨source.suffix 4, 4⟩).1 = .ok h.recordCount
  headerEnd : h.headerEnd ≤ source.size

theorem Source.startsWith_of_parse {source : Source} {h : Header}
    (hstart : (source.parse Metadata.parseStart).outcome = .ok (.wdc2, some h)) :
    source.StartsWith h := by
  have hparse : (Metadata.parseStart.on (.ofBytes (source.suffix 0))).1 = .ok (.wdc2, some h) :=
    hstart
  obtain ⟨after, hrun⟩ : ∃ after, Metadata.parseStart.on (.ofBytes (source.suffix 0)) =
      (.ok (.wdc2, some h), after) := ⟨_, Prod.ext hparse rfl⟩
  obtain ⟨signature, behind, hsignature, hrun⟩ := on_bind_eq_ok.mp hrun
  obtain ⟨header, _, hheader, hrun⟩ := on_bind_eq_ok.mp hrun
  cases hrun
  obtain ⟨hsectioned, hrecords, hend, hwhole⟩ := Header.parts_of_on_parse hheader
  have hbehind := Signature.leaves_parse (.ofBytes (source.suffix 0))
  rw [hsignature] at hbehind
  have hall : Input.whole behind = source.size := hbehind.trans (Nat.zero_add _)
  obtain ⟨magic, _, htake, hmatch⟩ := on_bind_eq_ok.mp hsignature
  rcases Nat.lt_or_ge (source.suffix 0).length 4 with hlt | hle
  · rw [Parse.on_take_of_lt hlt] at htake
    cases htake
  · rw [Parse.on_take_of_le hle] at htake
    cases htake
    cases hfind : Signature.ofMagic? ((Input.ofBytes (source.suffix 0)).rest.take 4) with
    | none =>
        rw [hfind] at hmatch
        cases hmatch
    | some found =>
        rw [hfind] at hmatch
        cases hmatch
        have hmagic := List.find?_some hfind
        refine ⟨hsectioned, ?_, ?_, ?_⟩
        · exact (eq_of_beq hmagic).symm
        · rw [← hrecords, ← Nat.zero_add 4, suffix_add]
          rfl
        · unfold Input.whole at hwhole hall
          omega

end ClientTable
