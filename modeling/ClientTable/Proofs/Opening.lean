import ClientTable.Proofs.Interning
import ClientTable.Reader

namespace ClientTable

open Attempt

theorem Parse.ensures_many {α : Type} (item : Parse α) (count : Nat) :
    Ensures (many item count) fun items => items.length = count := by
  induction count with
  | zero => exact ensures_pure rfl
  | succ count ih =>
      refine ensures_bind fun first => ih.bind fun others hothers => ensures_pure ?_
      rw [List.length_cons, hothers]

theorem Parse.length_of_decode_many {α : Type} {item : Parse α} {count : Nat} {bytes : Bytes}
    {items : List α} (h : decode (many item count) bytes = .ok items) : items.length = count :=
  ensures_many item count _ items h

theorem FieldInfo.plain_of_descriptors {h : Header} {index : Nat} {infos : List FieldInfo}
    {columns : List Descriptor} (hcolumns : FieldInfo.descriptors h index infos = .ok columns) :
    columns.length = infos.length ∧ ∀ d ∈ columns, d.storage = .plain false := by
  induction infos generalizing index columns with
  | nil =>
      cases hcolumns
      exact ⟨rfl, nofun⟩
  | cons info infos ih =>
      obtain ⟨size, -, hcolumns⟩ := bind_eq_ok.mp hcolumns
      obtain ⟨count, -, hcolumns⟩ := bind_eq_ok.mp hcolumns
      obtain ⟨others, hothers, hcolumns⟩ := bind_eq_ok.mp hcolumns
      cases hcolumns
      obtain ⟨hlength, hplain⟩ := ih hothers
      exact ⟨congrArg (· + 1) hlength, List.forall_mem_cons.mpr ⟨rfl, hplain⟩⟩

namespace Descriptor

/-- The descriptors of a file are those of its columns, behind which there may be one for foreign
keys. -/
inductive Completes (h : Header) (columns : List Descriptor) : List Descriptor → Prop where
  | columns : Completes h columns columns
  | related {last : Descriptor} (hlast : relationshipColumn h = .ok last) :
    Completes h columns (columns ++ [last])

theorem ensures_readAll {source : Source} {h : Header} {layout : Layout} {schema : Schema}
    {P : List Descriptor → Prop} (hcolumns : Ensures (readColumns source h layout schema) P) :
    Ensures (readAll source h layout schema) fun descriptors =>
      ∃ columns, P columns ∧ Completes h columns descriptors := by
  refine hcolumns.bind fun columns hcolumns => ?_
  have hchecked (descriptors : List Descriptor) (hdescriptors : Completes h columns descriptors) :
      Ensures (do checkWidth h descriptors; return descriptors : Reading (List Descriptor))
        fun descriptors => ∃ columns, P columns ∧ Completes h columns descriptors :=
    ensures_bind fun _ => ensures_pure ⟨columns, hcolumns, hdescriptors⟩
  dsimp only
  split
  · refine Ensures.bind (Q := fun last => relationshipColumn h = .ok last)
      (ensures_lift fun _ => id) fun last hlast => ?_
    exact (ensures_pure (Completes.related hlast)).bind hchecked
  · exact (ensures_pure Completes.columns).bind hchecked

end Descriptor

namespace Header

/-- The sections of a sectioned file announce as many records as its header declares. -/
def CountsAgree (h : Header) : Prop :=
  h.signature = .wdc2 → announcedRecords h.sections = h.recordCount.toNat

theorem ensures_parseBuild (h : Header) :
    Ensures h.parseBuild fun parsed => parsed.signature = h.signature := by
  iterate 7 refine ensures_bind fun _ => ?_
  exact ensures_pure rfl

theorem ensures_parseFlagged (h : Header) :
    Ensures h.parseFlagged fun parsed => parsed.signature = h.signature := by
  iterate 8 refine ensures_bind fun _ => ?_
  exact ensures_pure rfl

theorem ensures_parseCommonSize (h : Header) :
    Ensures h.parseCommonSize fun parsed => parsed.signature = h.signature := by
  iterate 2 refine ensures_bind fun _ => ?_
  exact ensures_pure rfl

theorem ensures_parseStorageSizes (h : Header) :
    Ensures h.parseStorageSizes fun parsed => parsed.signature = h.signature := by
  iterate 9 refine ensures_bind fun _ => ?_
  exact ensures_pure rfl

theorem ensures_parseSectioned (h : Header) : Ensures h.parseSectioned CountsAgree := by
  iterate 14 refine ensures_bind fun _ => ?_
  refine ensures_bind fun sections => ?_
  dsimp only
  split
  case isTrue => exact ensures_throw_bind _ _
  case isFalse hcount =>
    refine ensures_pure fun _ => ?_
    exact Decidable.not_not.mp hcount

theorem ensures_parseExtension (h : Header) : Ensures h.parseExtension CountsAgree := by
  unfold parseExtension
  have vacuous {parsed : Header} (hother : h.signature ≠ .wdc2)
      (hparsed : parsed.signature = h.signature) : parsed.CountsAgree :=
    fun hwdc2 => absurd (hparsed.symm.trans hwdc2) hother
  cases hs : h.signature with
  | wdbc => exact ensures_pure (vacuous (by rw [hs]; decide) rfl)
  | wdb2 =>
      exact fun input parsed hok =>
        vacuous (by rw [hs]; decide) (h.ensures_parseBuild input parsed hok)
  | wdb3 => exact ensures_throw _
  | wdb4 => exact ensures_throw _
  | wdb5 =>
      exact fun input parsed hok =>
        vacuous (by rw [hs]; decide) (h.ensures_parseFlagged input parsed hok)
  | wdb6 =>
      refine h.ensures_parseFlagged.bind fun flagged hflagged input parsed hok => ?_
      exact vacuous (by rw [hs]; decide)
        ((flagged.ensures_parseCommonSize input parsed hok).trans hflagged)
  | wdc1 =>
      refine h.ensures_parseFlagged.bind fun flagged hflagged input parsed hok => ?_
      exact vacuous (by rw [hs]; decide)
        ((flagged.ensures_parseStorageSizes input parsed hok).trans hflagged)
  | wdc2 => exact h.ensures_parseSectioned

theorem CountsAgree.withTotalFieldCount {h : Header} (hagree : h.CountsAgree) :
    h.withTotalFieldCount.CountsAgree := by
  unfold Header.withTotalFieldCount
  split
  · exact hagree
  · exact hagree

theorem ensures_parse (signature : Signature) :
    Ensures (parse signature) fun header => ∀ h, header = some h → h.CountsAgree := by
  unfold parse
  split
  · exact ensures_throw_bind _ _
  · refine ensures_bind fun recordCount => ?_
    split
    · exact ensures_pure nofun
    · iterate 3 refine ensures_bind fun _ => ?_
      refine (ensures_parseExtension _).bind fun h hagree => ensures_bind fun headerEnd => ?_
      refine ensures_pure fun parsed hparsed => ?_
      cases hparsed
      exact hagree.withTotalFieldCount

end Header

namespace Layout

def recordCount (layout : Layout) : Nat :=
  total (layout.sections.map fun s => s.recordCount.toNat)

theorem recordCount_ofChain (h : Header) (segments : List Segment) :
    (ofChain h segments).recordCount = h.recordCount.toNat :=
  rfl

theorem recordCount_of_planSections {h : Header} {index : Nat} {headers : List SectionHeader}
    {sections : List SectionLayout} (hplan : planSections h index headers = .ok sections) :
    sections.map SectionLayout.recordCount = headers.map SectionHeader.recordCount := by
  induction headers generalizing index sections with
  | nil =>
      cases hplan
      rfl
  | cons s headers ih =>
      obtain ⟨first, hfirst, hrest⟩ := bind_eq_ok.mp hplan
      obtain ⟨others, hothers, hsections⟩ := bind_eq_ok.mp hrest
      obtain ⟨segments, _, hsegments⟩ := bind_eq_ok.mp hfirst
      cases hsections
      cases hsegments
      rw [List.map_cons, List.map_cons, ih hothers]

theorem recordCount_of_plan {h : Header} {layout : Layout} (hagree : h.CountsAgree)
    (hplan : plan h = .ok layout) : layout.recordCount = h.recordCount.toNat := by
  unfold plan at hplan
  have chain {requests : List Request}
      (hok : (do return ofChain h (← place h h.headerEnd requests) : Except Error Layout) =
        .ok layout) : layout.recordCount = h.recordCount.toNat := by
    obtain ⟨segments, _, hlayout⟩ := bind_eq_ok.mp hok
    cases hlayout
    exact recordCount_ofChain h segments
  cases hs : h.signature with
  | wdbc => exact chain (by simpa only [hs] using hplan)
  | wdb2 => exact chain (by simpa only [hs] using hplan)
  | wdb3 => simp only [hs] at hplan; cases hplan
  | wdb4 => simp only [hs] at hplan; cases hplan
  | wdb5 => exact chain (by simpa only [hs] using hplan)
  | wdb6 => exact chain (by simpa only [hs] using hplan)
  | wdc1 => exact chain (by simpa only [hs] using hplan)
  | wdc2 =>
      simp only [hs] at hplan
      obtain ⟨shared, _, hrest⟩ := bind_eq_ok.mp hplan
      obtain ⟨sections, hsections, hlayout⟩ := bind_eq_ok.mp hrest
      cases hlayout
      have hcounts := congrArg (fun counts => total (counts.map UInt32.toNat))
        (recordCount_of_planSections hsections)
      simp only [List.map_map] at hcounts
      exact hcounts.trans (hagree hs)

end Layout

namespace Metadata

/-- The metadata of a file that opens: either it has no records, or all is as its header says. -/
inductive IsRead (source : Source) (schema : Schema) : Metadata → Prop
  | empty (signature : Signature) : IsRead source schema (ofEmptyFile signature schema)
  | populated {signature : Signature} {h : Header} {layout : Layout}
    {descriptors : List Descriptor} {mappings : List Mapping}
    (hstart : parseStart.Yields (signature, some h)) (hplan : Layout.plan h = .ok layout)
    (hdescriptors : (Descriptor.readAll source h layout schema).Yields descriptors)
    (hmappings : sectionMappings h layout descriptors schema = .ok mappings) :
    IsRead source schema ⟨h.signature, some h, layout, descriptors, schema, mappings⟩

theorem ensures_isRead (source : Source) (schema : Schema) :
    Ensures (Metadata.read source schema) (IsRead source schema) := by
  have hparse : Ensures (source.parse parseStart) parseStart.Yields :=
    fun _ start hok => ⟨_, hok⟩
  refine hparse.bind fun ⟨signature, header⟩ hstart => ?_
  cases header with
  | none => exact ensures_pure (.empty signature)
  | some h =>
      refine Ensures.bind (Q := fun layout => Layout.plan h = .ok layout)
        (ensures_lift fun _ => id) fun layout hplan => ?_
      refine (ensures_yields _).bind fun descriptors hdescriptors => ?_
      refine Ensures.bind
        (Q := fun mappings => sectionMappings h layout descriptors schema = .ok mappings)
        (ensures_lift fun _ => id) fun mappings hmappings => ?_
      exact ensures_pure (.populated hstart hplan hdescriptors hmappings)

theorem IsRead.of_header {source : Source} {schema : Schema} {m : Metadata} {h : Header}
    (hm : m.IsRead source schema) (hheader : m.header = some h) : Layout.plan h = .ok m.layout ∧
      (Descriptor.readAll source h m.layout schema).Yields m.descriptors := by
  cases hm with
  | empty signature => cases hheader
  | populated _ hplan hdescriptors _ =>
      cases hheader
      exact ⟨hplan, hdescriptors⟩

theorem ensures_read (source : Source) (schema : Schema) :
    Ensures (Metadata.read source schema) fun m => m.layout.recordCount = m.recordCount := by
  have hparse : Ensures parseStart fun start => ∀ h, start.2 = some h → h.CountsAgree :=
    ensures_bind fun signature => (Header.ensures_parse signature).bind
      fun header hheader => ensures_pure hheader
  refine (ensures_isRead source schema).mono fun m hm => ?_
  cases hm with
  | empty signature => rfl
  | populated hstart hplan _ _ =>
      exact Layout.recordCount_of_plan (hstart.of_ensures hparse _ rfl) hplan

end Metadata

theorem Reader.ensures_isRead (stream : Stream) (schema : Schema) (options : Options) :
    Ensures (ofStream stream schema options) fun reader =>
      reader.metadata.IsRead reader.source schema :=
  ensures_bind fun source =>
    (Metadata.ensures_isRead source schema).bind fun _ hm => ensures_pure hm

theorem Source.ensures_readSegment (source : Source) (segment : Segment) :
    Ensures (source.readSegment segment) fun block =>
      source.block segment.start segment.length = .ok block :=
  fun _ _ hok => hok

theorem Block.ensures_entryCount (block : Block) (length entrySize : Nat) :
    Ensures (liftM (block.entryCount length entrySize) : Reading Nat) fun count =>
      count = length / entrySize := by
  refine ensures_lift fun count hcount => ?_
  unfold Block.entryCount at hcount
  split at hcount
  · cases hcount
  · cases hcount
    rfl

theorem Block.mul_le_of_entryCount {block : Block} {length entrySize count : Nat}
    (h : block.entryCount length entrySize = .ok count) : count * entrySize ≤ length := by
  rw [block.ensures_entryCount length entrySize 0 count h]
  exact Nat.div_mul_le_self length entrySize

theorem Chunk.length_take_drop {block : Bytes} {chunk : Chunk} (h : ¬ block.length < chunk.stop) :
    ((block.drop chunk.start).take chunk.size).length = chunk.size := by
  rw [Chunk.stop] at h
  rw [List.length_take, List.length_drop]
  omega

namespace RowLocation

theorem select_eq_ok {records : Segment} {recordCount : UInt32} {slots used : List RowLocation}
    (h : select records recordCount slots = .ok used) :
    used = slots.filter isUsed ∧ used.length = recordCount.toNat := by
  unfold select at h
  dsimp only at h
  split at h
  · cases h
  · split at h
    case isTrue hlength =>
      cases h
      exact ⟨rfl, hlength⟩
    case isFalse => cases h

/-- The used slots of an offset map, in the order of its block. -/
def LocatedBy (source : Source) (segment : Segment) (used : List RowLocation) : Prop :=
  ∃ block slots, source.block segment.start segment.length = .ok block ∧
    Parse.decode (Parse.many parse (segment.length / entrySize)) block = .ok slots ∧
    used = slots.filter isUsed

theorem ensures_readAll (source : Source) (segment records : Segment) (recordCount : UInt32) :
    Ensures (readAll source segment records recordCount) fun used =>
      LocatedBy source segment used ∧ used.length = recordCount.toNat := by
  refine (Block.ensures_entryCount .offsetMap _ _).bind fun count hcount => ?_
  refine (Source.ensures_readSegment source segment).bind fun block hblock => ?_
  refine Ensures.bind (Q := fun slots => Parse.decode (Parse.many parse count) block = .ok slots)
    (ensures_lift fun _ => id) fun slots hslots => ensures_lift fun used hused => ?_
  obtain ⟨hused, hlength⟩ := select_eq_ok hused
  subst hcount
  exact ⟨⟨block, slots, hblock, hslots, hused⟩, hlength⟩

end RowLocation

theorem CopyTable.ensures_read (source : Source) (segment : Segment) :
    Ensures (CopyTable.read source segment) fun t => t.size = segment.length / entrySize := by
  refine (Block.ensures_entryCount .copyTable _ _).bind fun count hcount => ?_
  refine ensures_bind fun block => ?_
  refine Ensures.bind (Q := fun copies => copies.length = count)
    (ensures_lift fun _ => Parse.length_of_decode_many) fun copies hcopies => ensures_pure ?_
  exact hcopies.trans hcount

namespace Section

/-- A section of which nothing has been given out. Its rows stand one after the other from the
start of the record area, or where the used slots of its offset map say. -/
structure Fresh (source : Source) (h : Header) (layout : SectionLayout) (s : Section) : Prop where
  fixed : h.hasOffsetMap = false →
    ∃ area, (layout.segments.find? fun segment => segment.kind = .records) = some area ∧
      s.rows = .fixed area.start h.recordSize.toNat layout.recordCount.toNat 0
  located : h.hasOffsetMap = true →
    ∃ segment used, layout.find? .offsetMap = some segment ∧
      RowLocation.LocatedBy source segment used ∧ used.length = layout.recordCount.toNat ∧
      s.rows = .located used 0
  strings : s.strings.Keeps s.strings.bytes
  copies : s.copies.size =
    match layout.find? .copyTable with
    | some segment => segment.length / CopyTable.entrySize
    | none => 0
  pending : s.pending = none

theorem ensures_readStrings (source : Source) (layout : SectionLayout) (records : Segment)
    (intern : Bool) :
    Ensures (readStrings source layout records intern) fun strings =>
      strings.1.Keeps strings.1.bytes := by
  unfold readStrings
  cases layout.find? .stringBlock with
  | none => exact ensures_pure (StringTable.keeps_ofBytes [] intern)
  | some segment =>
      refine Ensures.bind (Q := fun t => t.Keeps t.bytes) ?_ fun t ht => ensures_pure ht
      exact ensures_bind fun block => ensures_pure (StringTable.keeps_ofBytes block intern)

theorem ensures_readCopies (source : Source) (layout : SectionLayout) :
    Ensures (readCopies source layout) fun copies => copies.size =
      match layout.find? .copyTable with
      | some segment => segment.length / CopyTable.entrySize
      | none => 0 := by
  unfold readCopies
  cases layout.find? .copyTable with
  | none => exact ensures_pure rfl
  | some segment => exact CopyTable.ensures_read source segment

theorem ensures_readRows (source : Source) (h : Header) (layout : SectionLayout)
    (records : Segment) :
    Ensures (readRows source h layout records) fun rows =>
      (h.hasOffsetMap = false →
        rows = .fixed records.start h.recordSize.toNat layout.recordCount.toNat 0) ∧
      (h.hasOffsetMap = true → ∃ segment used, layout.find? .offsetMap = some segment ∧
        RowLocation.LocatedBy source segment used ∧ used.length = layout.recordCount.toNat ∧
        rows = .located used 0) := by
  unfold readRows
  split
  case isTrue hmap =>
    cases hsegment : layout.find? .offsetMap with
    | none => exact ensures_throw _
    | some segment =>
        refine (RowLocation.ensures_readAll source segment records layout.recordCount).bind
          fun used ⟨hused, hlength⟩ => ensures_pure ⟨?_, fun _ => ?_⟩
        · intro hfixed
          rw [hmap] at hfixed
          cases hfixed
        · exact ⟨segment, used, rfl, hused, hlength, rfl⟩
  case isFalse hmap =>
    refine ensures_pure ⟨fun _ => rfl, fun hlocated => ?_⟩
    exact absurd hlocated hmap

/-- What a section is put together from when it is opened. -/
structure PutTogether (source : Source) (h : Header) (layout : SectionLayout) (intern : Bool)
    (area : Segment) (s : Section) : Prop where
  records : (layout.segments.find? fun segment => segment.kind = .records) = some area
  strings : (readStrings source layout area intern).Yields (s.strings, s.stringBlockStart)
  rows : (readRows source h layout area).Yields s.rows
  keys : (readKeys source layout).Yields s.keys
  copies : (readCopies source layout).Yields s.copies
  relationships : (readRelationships source h layout).Yields s.relationships
  index : s.index = layout.index
  isVariable : s.isVariable = h.hasOffsetMap
  hasRelativeStrings : s.hasRelativeStrings = h.signature.hasRelativeStrings
  pending : s.pending = none

theorem ensures_read_putTogether (source : Source) (h : Header) (layout : SectionLayout)
    (intern : Bool) :
    Ensures (read source h layout intern) fun s => ∃ area, s.PutTogether source h layout intern
      area := by
  unfold read
  cases harea : layout.segments.find? fun segment => segment.kind = .records with
  | none => exact ensures_throw _
  | some area =>
      refine (ensures_yields _).bind fun ⟨strings, stringBlockStart⟩ hstrings => ?_
      refine (ensures_yields _).bind fun rows hrows => ?_
      refine (ensures_yields _).bind fun keys hkeys => ?_
      refine (ensures_yields _).bind fun copies hcopies => ?_
      refine (ensures_yields _).bind fun relationships hrelationships => ensures_pure ⟨area, ?_⟩
      exact ⟨harea, hstrings, hrows, hkeys, hcopies, hrelationships, rfl, rfl, rfl, rfl⟩

theorem ensures_read (source : Source) (h : Header) (layout : SectionLayout) (intern : Bool) :
    Ensures (read source h layout intern) (Fresh source h layout) := by
  refine (ensures_read_putTogether source h layout intern).mono fun s ⟨area, hread⟩ => ?_
  obtain ⟨hfixed, hlocated⟩ := hread.rows.of_ensures (ensures_readRows source h layout area)
  refine ⟨fun hmap => ⟨area, hread.records, hfixed hmap⟩, hlocated, ?_, ?_, hread.pending⟩
  · exact hread.strings.of_ensures (ensures_readStrings source layout area intern)
  · exact hread.copies.of_ensures (ensures_readCopies source layout)

end Section

end ClientTable
