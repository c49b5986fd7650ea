import ClientTable.Proofs.Iteration
import ClientTable.Proofs.KeyFields

namespace ClientTable

open Attempt

namespace Layout

theorem index_of_planSections {h : Header} {index : Nat} {headers : List SectionHeader}
    {sections : List SectionLayout} (hplan : planSections h index headers = .ok sections) {i : Nat}
    {s : SectionLayout} (hs : sections[i]? = some s) : s.index = index + i := by
  induction headers generalizing index sections i with
  | nil =>
      cases hplan
      cases hs
  | cons header headers ih =>
      obtain ⟨first, hfirst, hrest⟩ := bind_eq_ok.mp hplan
      obtain ⟨others, hothers, hsections⟩ := bind_eq_ok.mp hrest
      obtain ⟨segments, _, hsegments⟩ := bind_eq_ok.mp hfirst
      cases hsections
      cases hsegments
      cases i with
      | zero =>
          cases hs
          rfl
      | succ i =>
          rw [ih hothers hs]
          omega

theorem index_of_plan {h : Header} {layout : Layout} (hplan : plan h = .ok layout) {i : Nat}
    {s : SectionLayout} (hs : layout.sections[i]? = some s) : s.index = i := by
  unfold plan at hplan
  have chain {requests : List Request}
      (hok : (do return ofChain h (← place h h.headerEnd requests) : Except Error Layout) =
        .ok layout) : s.index = i := by
    obtain ⟨segments, _, hlayout⟩ := bind_eq_ok.mp hok
    cases hlayout
    cases i with
    | zero =>
        cases hs
        rfl
    | succ i => cases hs
  cases hsignature : h.signature with
  | wdb3 =>
      rw [hsignature] at hplan
      cases hplan
  | wdb4 =>
      rw [hsignature] at hplan
      cases hplan
  | wdc2 =>
      rw [hsignature] at hplan
      obtain ⟨shared, _, hrest⟩ := bind_eq_ok.mp hplan
      obtain ⟨sections, hsections, hlayout⟩ := bind_eq_ok.mp hrest
      cases hlayout
      exact (index_of_planSections hsections hs).trans (Nat.zero_add i)
  | _ =>
      rw [hsignature] at hplan
      exact chain hplan

end Layout

namespace Metadata

/-- The schema is fed in each section as the section's layout says. -/
def IsMapped (m : Metadata) (schema : Schema) : Prop :=
  m.schema = schema ∧ ∀ h, m.header = some h → ∀ layout ∈ m.layout.sections,
    ∃ mapping, m.mappings[layout.index]? = some mapping ∧
      sectionMapping h m.descriptors schema layout = .ok mapping

theorem ensures_isMapped (source : Source) (schema : Schema) :
    Ensures (Metadata.read source schema) fun m => m.IsMapped schema := by
  refine (ensures_isRead source schema).mono fun m hm => ?_
  cases hm with
  | empty signature => exact ⟨rfl, nofun⟩
  | populated _ hplan _ hmappings =>
      refine ⟨rfl, ?_⟩
      rintro _ ⟨⟩ s hs
      obtain ⟨i, hi⟩ := List.mem_iff_getElem?.mp hs
      rw [Layout.index_of_plan hplan hi]
      exact exists_of_mapM hmappings hi

end Metadata

namespace Section

theorem ensures_readKeys (source : Source) (layout : SectionLayout) :
    Ensures (readKeys source layout) fun keys =>
      keys.isSome = (layout.find? .indexTable).isSome := by
  unfold readKeys
  cases layout.find? .indexTable with
  | none => exact ensures_pure rfl
  | some segment => exact ensures_bind fun table => ensures_pure rfl

theorem ensures_read_keys (source : Source) (h : Header) (layout : SectionLayout) (intern : Bool) :
    Ensures (read source h layout intern) fun s =>
      s.index = layout.index ∧ s.keys.isSome = (layout.find? .indexTable).isSome := by
  refine (ensures_read_putTogether source h layout intern).mono fun s ⟨area, hread⟩ => ?_
  exact ⟨hread.index, hread.keys.of_ensures (ensures_readKeys source layout)⟩

variable {source : Source} {m : Metadata} {shared : SharedTables} {s : Section} {row : Row}
  {base : Record}

/-- The entry of the index table for a row. -/
def entry? (s : Section) (row : Nat) : Option UInt32 :=
  s.keys.bind fun table => table.key? row

theorem externalKey_eq_ok {index : Nat} {external : Option UInt32}
    (h : s.externalKey index = .ok external) :
    external = s.entry? index ∧ external.isSome = s.keys.isSome := by
  unfold externalKey at h
  unfold entry?
  cases hkeys : s.keys with
  | none =>
      rw [hkeys] at h
      cases h
      exact ⟨rfl, rfl⟩
  | some table =>
      rw [hkeys] at h
      dsimp only at h
      cases hentry : table.key? index with
      | none =>
          rw [hentry] at h
          cases h
      | some entry =>
          rw [hentry] at h
          cases h
          exact ⟨hentry.symm, rfl⟩

theorem of_decodeRow {mapping : Mapping} {data : Bytes}
    (h : (s.decodeRow m shared mapping row data).1 = .ok base) :
    (s.entry? row.index).isSome = s.keys.isSome ∧
      ∃ values t, (mapping.values (s.context m shared row) (s.entry? row.index)).on
        (.start data s.strings) = (.ok values, t) ∧
          base = ⟨m.schema, values, mapping.keyField⟩ := by
  unfold decodeRow at h
  cases hkey : s.externalKey row.index with
  | error e =>
      rw [hkey] at h
      cases h
  | ok external =>
      rw [hkey] at h
      dsimp only at h
      obtain ⟨rfl, hsome⟩ := externalKey_eq_ok hkey
      refine ⟨hsome, ?_⟩
      rcases hvalues : (mapping.values (s.context m shared row)
        (s.entry? row.index)).on (.start data s.strings) with ⟨_ | values, t⟩
      · rw [hvalues] at h
        cases h
      · rw [hvalues] at h
        cases h
        exact ⟨values, t, rfl, rfl⟩

theorem exists_of_decoded (h : (s.decoded source m shared row).1 = .ok base) :
    ∃ mapping data values t, m.mappings[s.index]? = some mapping ∧
      source.block row.offset row.length = .ok data ∧
      (s.entry? row.index).isSome = s.keys.isSome ∧
      (mapping.values (s.context m shared row) (s.entry? row.index)).on (.start data s.strings) =
        (.ok values, t) ∧
      base = ⟨m.schema, values, mapping.keyField⟩ := by
  unfold decoded at h
  cases hmapping : m.mappings[s.index]? with
  | none =>
      rw [hmapping] at h
      cases h
  | some mapping =>
      rw [hmapping] at h
      dsimp only at h
      cases hblock : source.block row.offset row.length with
      | error e =>
          rw [hblock] at h
          cases h
      | ok data =>
          rw [hblock] at h
          obtain ⟨hsome, values, t, hvalues, hbase⟩ := of_decodeRow h
          exact ⟨mapping, data, values, t, rfl, rfl, hsome, hvalues, hbase⟩

end Section

/-- The items of a row are among those of its file. -/
theorem Records.exists_itemsOf_eq {r : Records} {h : Header} {layout : SectionLayout} {s : Section}
    {row : Row} (hheader : r.metadata.header = some h)
    (hlayout : layout ∈ r.metadata.layout.sections)
    (hopens : (Section.read r.source h layout r.internStrings).outcome = .ok s)
    (hrow : row ∈ s.rows.rows) :
    ∃ before after, r.itemsOf r.metadata.layout.sections =
      before ++ s.rowItems r.source r.metadata r.shared row ++ after := by
  obtain ⟨first, last, hsections⟩ := List.append_of_mem hlayout
  obtain ⟨above, below, hrows⟩ := List.append_of_mem hrow
  have hitems : r.sectionItems h layout =
      s.rows.rows.flatMap (s.rowItems r.source r.metadata r.shared) := by
    rw [sectionItems, hopens]
  refine ⟨first.flatMap (r.sectionItems h) ++
      above.flatMap (s.rowItems r.source r.metadata r.shared),
    below.flatMap (s.rowItems r.source r.metadata r.shared) ++ last.flatMap (r.sectionItems h), ?_⟩
  unfold itemsOf
  rw [hheader, hsections]
  dsimp only
  rw [List.flatMap_append, List.flatMap_cons, hitems, hrows, List.flatMap_append,
    List.flatMap_cons]
  simp only [List.append_assoc]

namespace Reader

theorem ensures_isMapped (stream : Stream) (schema : Schema) (options : Options) :
    Ensures (ofStream stream schema options) fun reader => reader.metadata.IsMapped schema :=
  ensures_bind fun source =>
    (Metadata.ensures_isMapped source schema).bind fun _ hm => ensures_pure hm

/-- A record that stands in a row of a section of a file. -/
structure HasRecord (reader : Reader) (records : Records) (h : Header) (layout : SectionLayout)
    (s : Section) (row : Row) (base : Record) : Prop where
  isHeader : reader.metadata.header = some h
  isSection : layout ∈ reader.metadata.layout.sections
  opens : (Section.read reader.source h layout reader.options.internStrings).outcome = .ok s
  isRow : row ∈ s.rows.rows
  decodes : (s.decoded reader.source reader.metadata records.shared row).1 = .ok base

variable {stream : Stream} {schema : Schema} {options : Options} {reader : Reader}
  {records : Records} {count count' : Nat} {h : Header} {layout : SectionLayout} {s : Section}
  {row : Row} {base : Record} {k : UInt32}

theorem HasRecord.exists_run_toList (hbase : reader.HasRecord records h layout s row base)
    (hrecords : (reader.records.on count').1 = .ok records) :
    ∃ before after, ∀ start, (records.toList.run start).1 =
      untilError (before ++ .ok base :: ((s.duplicateKeys base).map base.withKey ++ after)) := by
  obtain ⟨hheader, hlayout, hopens, hrow, hdecodes⟩ := hbase
  obtain ⟨fresh, hsource, hmetadata, hintern⟩ :=
    Records.ensures_start reader.source reader.metadata reader.options.internStrings
      count' records hrecords
  obtain ⟨before, after, hitems⟩ := Records.exists_itemsOf_eq (r := records)
    (hmetadata ▸ hheader) (hmetadata ▸ hlayout) (by rw [hsource, hintern]; exact hopens) hrow
  refine ⟨before, after, fun start => ?_⟩
  rw [fresh.run_toList, Records.reference, hitems, Section.rowItems, hsource, hmetadata, hdecodes]
  dsimp only
  rw [List.append_assoc, List.cons_append]

/-- The first record of a file, and what it has been decoded with. -/
structure FirstRecord where
  reader : Reader
  records : Records
  header : Header
  layout : SectionLayout
  opened : Section
  row : Row
  data : Bytes
  base : Record

def firstRecord? (file : Bytes) (schema : Schema) : Option FirstRecord := do
  let reader ← ((ofStream ⟨file, 0, none⟩ schema .default).on 0).1.toOption
  let records ← (reader.records.on 0).1.toOption
  let header ← reader.metadata.header
  let layout ← reader.metadata.layout.sections.head?
  let opened ←
    (Section.read reader.source header layout reader.options.internStrings).outcome.toOption
  let row ← opened.rows.rows.head?
  let data ← (reader.source.block row.offset row.length).toOption
  let base ← (opened.decoded reader.source reader.metadata records.shared row).1.toOption
  return ⟨reader, records, header, layout, opened, row, data, base⟩

namespace FirstRecord

variable {file : Bytes} {f : FirstRecord}

theorem hasRecord (hf : firstRecord? file schema = some f) :
    ((ofStream ⟨file, 0, none⟩ schema .default).on 0).1 = .ok f.reader ∧
      (f.reader.records.on 0).1 = .ok f.records ∧
      f.reader.HasRecord f.records f.header f.layout f.opened f.row f.base := by
  unfold firstRecord? at hf
  obtain ⟨reader, hreader, hf⟩ := Option.bind_eq_some_iff.mp hf
  obtain ⟨records, hrecords, hf⟩ := Option.bind_eq_some_iff.mp hf
  obtain ⟨header, hheader, hf⟩ := Option.bind_eq_some_iff.mp hf
  obtain ⟨layout, hlayout, hf⟩ := Option.bind_eq_some_iff.mp hf
  obtain ⟨opened, hopened, hf⟩ := Option.bind_eq_some_iff.mp hf
  obtain ⟨row, hrow, hf⟩ := Option.bind_eq_some_iff.mp hf
  obtain ⟨data, hdata, hf⟩ := Option.bind_eq_some_iff.mp hf
  obtain ⟨base, hbase, hf⟩ := Option.bind_eq_some_iff.mp hf
  cases hf
  exact ⟨ok_of_toOption hreader, ok_of_toOption hrecords, hheader,
    List.mem_of_mem_head? hlayout, ok_of_toOption hopened, List.mem_of_mem_head? hrow,
    ok_of_toOption hbase⟩

/-- The id that the file gives the record: its entry of the index table, or else the number in the
column for keys. -/
def id? (f : FirstRecord) : Option Nat :=
  match f.opened.keys with
  | some table => (table.key? f.row.index).map UInt32.toNat
  | none => do
    let d ← f.reader.metadata.descriptors[f.header.indexColumn.toNat]?
    let number ← ((BitReader.ofBytes f.data).readWordAt d.bitOffset d.bitSize false).toOption
    return number.toNat

def items (f : FirstRecord) : List Item :=
  f.opened.rowItems f.reader.source f.reader.metadata f.records.shared f.row

/-- The copies of the id that the file gives the record. -/
def copies (f : FirstRecord) : List Item :=
  (f.opened.copies.copies.filter fun c => f.id? = some c.sourceKey.toNat).map fun c =>
    f.base.withKey c.newKey

end FirstRecord

def wordFile (signature : Signature) (words : List UInt32) : Bytes :=
  signature.magic ++ words.flatMap wordBytes

def keyedRows : Bytes :=
  wordFile .wdb6 [2, 1, 4, 0, 0, 0, 0, 0, 0, 16, 0, 2, 13, 0, 5, 6, 105, 5, 205, 5, 1] ++ 3 ::
    ([5, 70] : List UInt32).flatMap wordBytes

/-- Records whose key is not the id that the file gives them are not followed by the copies of the
id. -/
def Strays (file : Bytes) (schema : Schema) (k : UInt32) (id : Nat) : Prop :=
  ∃ f, firstRecord? file schema = some f ∧ f.base.key? = some k ∧ f.id? = some id ∧
    f.items ≠ .ok f.base :: f.copies

end Reader

end ClientTable
