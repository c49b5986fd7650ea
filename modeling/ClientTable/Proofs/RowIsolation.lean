import ClientTable.Proofs.Bounds
import ClientTable.Proofs.InternalErrors
import ClientTable.Proofs.Laziness
import ClientTable.Proofs.OffsetMaps
import ClientTable.Proofs.RowOverruns

namespace ClientTable

open Attempt

/-- Whether a position of the file lies in the row. -/
def Row.covers (row : Row) (position : Nat) : Bool :=
  decide (row.offset ≤ position ∧ position < row.offset + row.length)

namespace RowCursor

variable {h : Header} {layout : SectionLayout} {area : Segment}

end RowCursor

namespace Section

variable {h : Header} {layout : SectionLayout}

end Section

/-- The second stream is the first with bytes changed in place. None of these is in the ranges of
the file that starts at the position. -/
structure Stream.Edited (s t : Stream) (kept : List Span) : Prop where
  position : t.position = s.position
  seekFault : t.seekFault = s.seekFault
  length : t.bytes.length = s.bytes.length
  bytes : ∀ span ∈ kept, ∀ i, span.start ≤ i → i < span.start + span.length →
    t.bytes[s.position + i]? = s.bytes[s.position + i]?

theorem Stream.Edited.agrees {s t : Stream} {kept : List Span} (h : s.Edited t kept) :
    s.Agrees t kept := by
  intro span hspan
  apply List.ext_getElem?
  intro i
  rw [h.position]
  simp only [List.getElem?_take, List.getElem?_drop]
  split
  case isTrue hi => exact h.bytes span hspan (span.start + i) (by omega) (by omega)
  case isFalse => rfl

/-- The copy that the first eight bytes spell. -/
def Copy.first (bytes : Bytes) : Copy :=
  ⟨UInt32.ofNat (littleEndian (bytes.take 4)), UInt32.ofNat (littleEndian ((bytes.drop 4).take 4))⟩

theorem Copy.on_parse_first {bytes : Bytes} (h : 8 ≤ bytes.length) (position : Nat) :
    parse.on ⟨bytes, position⟩ = (.ok (first bytes), ⟨bytes.drop 8, position + 4 + 4⟩) := by
  have hnew : 4 ≤ (Input.mk bytes position).rest.length := by
    change 4 ≤ bytes.length
    omega
  have hsource : 4 ≤ (Input.mk (bytes.drop 4) (position + 4)).rest.length := by
    simp only [List.length_drop]
    omega
  unfold parse
  rw [on_bind_of_ok (Parse.on_u32_of_le hnew), on_bind_of_ok (Parse.on_u32_of_le hsource)]
  simp only [on_pure, List.drop_drop, first]

/-- Any bytes are the entries of a copy table, if they are as many as they have to be. -/
theorem CopyTable.exists_read {s t : Source} {segment : Segment} {table : CopyTable}
    {start after : Nat} (hread : (CopyTable.read s segment).on start = (.ok table, after))
    (hcontains : ∀ bytes, s.block segment.start segment.length = .ok bytes →
      ∃ edited, t.block segment.start segment.length = .ok edited) :
    ∃ edited, ∀ start, ((CopyTable.read t segment).on start).1 = .ok edited := by
  obtain ⟨count, _, hcount, hread⟩ := on_bind_eq_ok.mp hread
  obtain ⟨block, _, hblock, _⟩ := on_bind_eq_ok.mp hread
  obtain ⟨hcount, -⟩ := on_lift_eq_ok hcount
  obtain ⟨edited, hedited⟩ := hcontains block (congrArg Prod.fst hblock)
  have hlength := (Source.block_eq_ok_iff.mp hedited).1
  have hwhole : 8 * count ≤ edited.length := by
    rw [hlength, Nat.mul_comm]
    exact Block.mul_le_of_entryCount hcount
  obtain ⟨copies, hcopies⟩ : ∃ copies,
      Parse.decode (Parse.many Copy.parse count) edited = .ok copies :=
    ⟨_, Parse.on_many_entries (fun _ position h => ⟨_, Copy.on_parse_first h position⟩) hwhole 0⟩
  refine ⟨⟨copies⟩, fun start => ?_⟩
  unfold read
  rw [hcount, on_bind_of_ok (on_lift _ _),
    on_bind_of_ok (Source.on_readSegment_of_block hedited start), hcopies]
  rfl

/-- The ranges of the tables of a section that its rows are decoded with: all but that of the copy
table. -/
def SectionLayout.lookupSpans (layout : SectionLayout) : List Span :=
  layout.spans .stringBlock ++ (layout.spans .offsetMap ++ (layout.spans .indexTable ++
    layout.spans .relationshipTable))

/-- A section is the same in a source that holds the same bytes in its tables, but for the copies of
its records. -/
theorem Section.exists_read {s t : Source} {h : Header} {layout : SectionLayout} {intern : Bool}
    {opened : Section} {count after : Nat}
    (hread : (Section.read s h layout intern).on count = (.ok opened, after))
    (hmap : h.hasOffsetMap = false → layout.find? .offsetMap = none)
    (hagrees : s.Agrees t layout.lookupSpans)
    (hcontains : ∀ start length bytes, s.block start length = .ok bytes →
      ∃ edited, t.block start length = .ok edited) :
    ∃ copies, ∀ count, ((Section.read t h layout intern).on count).1 =
      .ok { opened with copies } := by
  obtain ⟨hstrings, hagrees⟩ := Source.agrees_append.mp hagrees
  obtain ⟨hrows, hagrees⟩ := Source.agrees_append.mp hagrees
  obtain ⟨hkeys, hrelationships⟩ := Source.agrees_append.mp hagrees
  unfold read at hread ⊢
  cases harea : layout.segments.find? fun segment => segment.kind = .records with
  | none =>
    rw [harea] at hread
    cases hread
  | some area =>
    rw [harea] at hread
    obtain ⟨⟨strings, stringBlockStart⟩, _, hreadStrings, hread⟩ := on_bind_eq_ok.mp hread
    obtain ⟨rows, _, hreadRows, hread⟩ := on_bind_eq_ok.mp hread
    obtain ⟨keys, _, hreadKeys, hread⟩ := on_bind_eq_ok.mp hread
    obtain ⟨table, _, hreadCopies, hread⟩ := on_bind_eq_ok.mp hread
    obtain ⟨relationships, _, hreadRelationships, hread⟩ := on_bind_eq_ok.mp hread
    cases hread
    obtain ⟨copies, hcopies⟩ : ∃ copies, ∀ start,
        ((readCopies t layout).on start).1 = .ok copies := by
      unfold readCopies at hreadCopies ⊢
      cases hsegment : layout.find? .copyTable with
      | none => exact ⟨.empty, fun _ => rfl⟩
      | some segment =>
        rw [hsegment] at hreadCopies
        exact CopyTable.exists_read hreadCopies (hcontains segment.start segment.length)
    refine ⟨copies, fun count => ?_⟩
    dsimp only
    rw [on_bind_of_ok (uses_readStrings layout area intern _ _ _ _ hreadStrings t hstrings _),
      on_bind_of_ok (uses_readRows layout hmap area _ _ _ _ hreadRows t hrows _),
      on_bind_of_ok (uses_readKeys layout _ _ _ _ hreadKeys t hkeys _),
      on_bind_of_ok (Prod.ext (hcopies _) rfl),
      on_bind_of_ok (uses_readRelationships layout h _ _ _ _ hreadRelationships t hrelationships _)]
    rfl

namespace Section

variable {source t : Source} {m : Metadata} {shared : SharedTables} {s : Section} {row : Row}
  {kind : FieldKind} {slot : Slot} {state : RowState}

/-- Decoding the row comes to a stored element of a field, and to the state before the element is
read. -/
def ComesTo (source : Source) (m : Metadata) (shared : SharedTables) (s : Section) (row : Row)
    (kind : FieldKind) (slot : Slot) (state : RowState) : Prop :=
  ∃ mapping data key, m.mappings[s.index]? = some mapping ∧
    source.block row.offset row.length = .ok data ∧ s.externalKey row.index = .ok key ∧
    mapping.Reaches (s.context m shared row) key (.start data s.strings) kind slot state

theorem ComesTo.decoded_fails (h : s.ComesTo source m shared row kind slot state) {e : Error}
    (hfails : (((s.context m shared row).element slot.descriptor slot.element kind).on state).1 =
      .error e) : (s.decoded source m shared row).1 = .error e := by
  obtain ⟨mapping, data, key, hmapping, hdata, hkey, hreaches⟩ := h
  unfold decoded
  rw [hmapping]
  dsimp only
  rw [hdata]
  dsimp only
  unfold decodeRow
  rw [hkey]
  dsimp only
  rw [hreaches.values_fails hfails]
  rfl

theorem ComesTo.within (h : s.ComesTo source m shared row kind slot state)
    (hvariable : s.isVariable = true) :
    source.block row.offset row.length = .ok state.bits.data ∧
      state.bits.cursor ≤ 8 * row.length ∧
      ((s.context m shared row).Overruns kind slot state →
        ∃ fault, (s.decoded source m shared row).1 = .error (.invalid fault)) := by
  have hcomes := h
  obtain ⟨mapping, data, key, hmapping, hdata, hkey, hreaches⟩ := h
  have hlength := (Source.block_eq_ok_iff.mp hdata).1
  obtain ⟨hsame, hcursor⟩ := hreaches.within hvariable (Nat.zero_le _)
  change state.bits.data = data at hsame
  change state.bits.cursor ≤ 8 * data.length at hcursor
  refine ⟨by rw [hsame, hdata], by rwa [hlength] at hcursor, fun hends => ?_⟩
  obtain ⟨fault, hfault⟩ := RowContext.element_overruns hvariable hends
  exact ⟨fault, hcomes.decoded_fails hfault⟩

end Section

namespace Reader

/-- A section of an open file whose tables can be read. -/
structure HasSection (reader : Reader) (h : Header) (layout : SectionLayout) (s : Section) :
    Prop where
  isHeader : reader.metadata.header = some h
  isSection : layout ∈ reader.metadata.layout.sections
  opens : (Section.read reader.source h layout reader.options.internStrings).outcome = .ok s

variable {stream : Stream} {schema : Schema} {options : Options} {reader : Reader} {count : Nat}
  {h : Header} {layout : SectionLayout} {s : Section}

theorem HasSection.fresh (hsection : reader.HasSection h layout s) :
    s.Fresh reader.source h layout :=
  Section.ensures_read _ _ _ _ _ _ hsection.opens

theorem HasRecord.hasSection {records : Records} {row : Row} {base : Record}
    (hbase : reader.HasRecord records h layout s row base) : reader.HasSection h layout s :=
  ⟨hbase.isHeader, hbase.isSection, hbase.opens⟩

theorem ensures_plan (stream : Stream) (schema : Schema) (options : Options) :
    Ensures (ofStream stream schema options) fun reader =>
      ∀ h, reader.metadata.header = some h → Layout.plan h = .ok reader.metadata.layout :=
  (ensures_isRead stream schema options).mono fun _ hm _ hheader => (hm.of_header hheader).1

/-- The first row of a file, and what it is read with. -/
structure FirstRow where
  reader : Reader
  header : Header
  layout : SectionLayout
  opened : Section
  shared : SharedTables
  row : Row

def firstRow? (file : Bytes) (schema : Schema) : Option FirstRow := do
  let reader ← ((ofStream ⟨file, 0, none⟩ schema .default).on 0).1.toOption
  let header ← reader.metadata.header
  let layout ← reader.metadata.layout.sections.head?
  let opened ←
    (Section.read reader.source header layout reader.options.internStrings).outcome.toOption
  let shared ← (SharedTables.read reader.source reader.metadata).outcome.toOption
  let row ← opened.rows.rows.head?
  return ⟨reader, header, layout, opened, shared, row⟩

theorem FirstRow.hasSection {file : Bytes} {schema : Schema} {f : FirstRow}
    (hf : firstRow? file schema = some f) :
    ((ofStream ⟨file, 0, none⟩ schema .default).on 0).1 = .ok f.reader ∧
      f.reader.HasSection f.header f.layout f.opened ∧
      (SharedTables.read f.reader.source f.reader.metadata).outcome = .ok f.shared ∧
      f.row ∈ f.opened.rows.rows := by
  unfold firstRow? at hf
  obtain ⟨reader, hreader, hf⟩ := Option.bind_eq_some_iff.mp hf
  obtain ⟨header, hheader, hf⟩ := Option.bind_eq_some_iff.mp hf
  obtain ⟨layout, hlayout, hf⟩ := Option.bind_eq_some_iff.mp hf
  obtain ⟨opened, hopened, hf⟩ := Option.bind_eq_some_iff.mp hf
  obtain ⟨shared, hshared, hf⟩ := Option.bind_eq_some_iff.mp hf
  obtain ⟨row, hrow, hf⟩ := Option.bind_eq_some_iff.mp hf
  cases hf
  exact ⟨ok_of_toOption hreader, ⟨hheader, List.mem_of_mem_head? hlayout, ok_of_toOption hopened⟩,
    ok_of_toOption hshared, List.mem_of_mem_head? hrow⟩

end Reader

end ClientTable
