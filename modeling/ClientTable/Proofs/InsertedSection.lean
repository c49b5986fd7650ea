import ClientTable.Proofs.VacantMap

namespace ClientTable

open Attempt

namespace Reader

theorem session_of_source {stream : Stream} {schema : Schema} {options : Options} {source : Source}
    (hsource : (Source.ofStream stream options.copyToMemory).outcome = .ok source) :
    session stream schema options = (Metadata.read source schema).outcome.map fun m =>
      (m, Records.listed source m options.internStrings) := by
  rw [session_eq, hsource]
  rfl

/-- A vacant section changes nothing where there are no offset maps and the schema can be fed
without an index table: the file opens with the same schema and has the same items. If the schema
cannot be fed without one, every other section has one and the file does not open. With offset maps
there is an error, unless the section starts with the file and the low half of the number of records
is zero. -/
theorem session_of_widens {stream stream' : Stream} {schema : Schema} {options : Options}
    {source target : Source} {h h' : Header} {vacant : SectionHeader} {m : Metadata}
    {items : List Item}
    (hsource : (Source.ofStream stream options.copyToMemory).outcome = .ok source)
    (htarget : (Source.ofStream stream' options.copyToMemory).outcome = .ok target)
    (hsession : session stream schema options = .ok (m, .ok items))
    (herror : ∀ e, .error e ∉ items) (hfile : source.Widens target h h' vacant m.layout) :
    (h.hasOffsetMap = false →
      (∀ mapping, Mapping.build schema m.descriptors h.indexColumn.toNat false = .ok mapping →
        ∃ m', session stream' schema options = .ok (m', .ok items) ∧ m'.schema = m.schema ∧
          m'.descriptors = m.descriptors) ∧
      ∀ e, Mapping.build schema m.descriptors h.indexColumn.toNat false = .error e →
        (∀ s ∈ m.layout.sections, (s.find? .indexTable).isSome = true) ∧
          session stream' schema options = .error e) ∧
    (h.hasOffsetMap = true → ∀ m' items', session stream' schema options = .ok (m', .ok items') →
      (∀ e, .error e ∉ items') → vacant.fileOffset = 0 ∧ h.recordCount.toNat % 65536 = 0) := by
  have hagree := hfile.header.agrees
  obtain ⟨_, hsource', hread, hlisted⟩ := exists_of_session hsession
  rw [hsource] at hsource'
  cases hsource'
  obtain ⟨hheader, hschema, hplan, hdescriptors, hmappings⟩ :=
    Metadata.parts_of_outcome_read hfile.start hread
  constructor
  · intro hfixed
    -- As there are no errors, every segment lies within the file, so there is room behind it.
    have hinside := Records.inside_of_listed (Source.startsWith_of_parse hfile.start).signature
      hfixed hheader hplan hdescriptors hlisted.symm herror
    obtain ⟨layout', hshared, hinserts, hopen⟩ :=
      Metadata.exists_outcome_read_of_widens hfile hfixed hread hinside
    have hmapped := Metadata.inserts_sectionMapping hagree hinserts m.descriptors schema
    rw [session_of_source htarget, hopen]
    constructor
    · intro mapping hbuild
      obtain ⟨mappings, hmappings'⟩ := (hmapped.imp (fun _ _ _ _ => id)
        fun _ hnew => hnew.trans hbuild).exists_mapM_eq_ok hmappings
      have hmappings' : Metadata.sectionMappings h' layout' m.descriptors schema =
        .ok mappings := hmappings'
      rw [hmappings'] at hopen ⊢
      refine ⟨_, congrArg (fun listed => Except.ok (_, listed)) ?_, hschema.symm, rfl⟩
      exact Records.listed_of_widens hagree hfixed hheader rfl
        (Metadata.ensures_isMapped source schema 0 m hread)
        (Metadata.ensures_isMapped target schema 0 _ hopen) rfl hshared hinserts hlisted.symm
        herror
    · intro e hbuild
      have hmappings' : Metadata.sectionMappings h' layout' m.descriptors schema = .error e :=
        (hmapped.imp (fun _ _ _ _ => id) fun _ hnew => hnew.trans hbuild).mapM_eq_error hmappings
      rw [hmappings']
      refine ⟨fun s hs => ?_, rfl⟩
      obtain ⟨_, _, hmapping⟩ :=
        (Metadata.ensures_isMapped source schema 0 m hread).2 h hheader s hs
      unfold Metadata.sectionMapping at hmapping
      -- Without one the section would have been mapped like the vacant one.
      by_contra hnone
      rw [Bool.eq_false_of_not_eq_true hnone, hbuild] at hmapping
      cases hmapping
  · intro hlocated m' items' hsession' herror'
    obtain ⟨_, htarget', hread', hlisted'⟩ := exists_of_session hsession'
    rw [htarget] at htarget'
    cases htarget'
    obtain ⟨hheader', _, hplan', _, _⟩ := Metadata.parts_of_outcome_read hfile.start' hread'
    obtain ⟨_, hmem, rfl⟩ := hfile.header.sections.exists_new
    rw [← hagree.recordCount]
    exact Records.vacant_of_listed (hagree.hasOffsetMap.trans hlocated)
      (Source.startsWith_of_parse hfile.start') hheader' hplan' hfile.header.isVacant hmem
      hlisted'.symm herror'

/-- Two files, of which the second announces a vacant section besides, and the items of the first
one. -/
structure Widening (file wide : Bytes) (schema : Schema) (m : Metadata) (items : List Item)
    (h h' : Header) (vacant : SectionHeader) : Prop where
  session : session ⟨file, 0, none⟩ schema .default = .ok (m, .ok items)
  sound : ∀ e, .error e ∉ items
  widens : (Source.stream file 0).Widens (.stream wide 0) h h' vacant m.layout

def header? (file : Bytes) : Option Header := do
  let (_, header) ← ((Source.stream file 0).parse Metadata.parseStart).outcome.toOption
  header

theorem exists_widening {file wide : Bytes} {schema : Schema}
    {P : Metadata → List Item → Header → Prop}
    (hrun : ∃ r ∈ (Reader.session ⟨file, 0, none⟩ schema .default).toOption,
      ∃ items ∈ r.2.toOption, ∃ h ∈ header? file, ∃ h' ∈ header? wide, ∃ vacant ∈ h'.sections,
        items.all (fun item => item.toOption.isSome) = true ∧
          (Source.stream file 0).Widens (.stream wide 0) h h' vacant r.1.layout ∧
          P r.1 items h) :
    ∃ m items h h' vacant, Widening file wide schema m items h h' vacant ∧ P m items h := by
  obtain ⟨⟨m, listed⟩, hr, items, hitems, h, _, h', _, vacant, _, hall, hwidens, hP⟩ := hrun
  obtain rfl := ok_of_toOption hitems
  refine ⟨m, items, h, h', vacant, ⟨ok_of_toOption hr, fun e he => ?_, hwidens⟩, hP⟩
  cases List.all_eq_true.mp hall _ he

/-- What announces a vacant section. -/
def vacantWords (place : UInt32) : List UInt32 :=
  [0, 0, place, 0, 0, 0, 0, 0, 0]

/-- A file of one record with a text and a copy of it, in a section behind others. -/
def namedRow (others : List UInt32) : Bytes :=
  wordFile .wdc2 ([1, 2, 8, 0, 0, 0, 0, 0, 0, 0, 2, 0, 0, 48, 0, 0,
    .ofNat (others.length / 9 + 1)] ++ others ++
    [0, 0, .ofNat (164 + 4 * others.length), 1, 4, 8, 0, 0, 0] ++
    [0, 0x40000, 0x200000, 0, 0, 0, 0, 0, 0x200020, 0, 0, 0, 0, 0, 5, 4, 0x41, 105, 5])

theorem session_of_widens_namedRow :
    ∃ m items h h' vacant,
      Widening (namedRow []) (namedRow (vacantWords 0xffffffff))
        ⟨[.scalar "id" .u32, .scalar "name" .text]⟩ m items h h' vacant ∧
      items.map (fun item => item.toOption.bind Record.key?) = [some 5, some 105] ∧
      ∃ m', session ⟨namedRow (vacantWords 0xffffffff), 0, none⟩
          ⟨[.scalar "id" .u32, .scalar "name" .text]⟩ .default = .ok (m', .ok items) ∧
        m'.schema = m.schema ∧ m'.descriptors = m.descriptors := by
  have hrun : ∃ m items h h' vacant,
      Widening (namedRow []) (namedRow (vacantWords 0xffffffff))
        ⟨[.scalar "id" .u32, .scalar "name" .text]⟩ m items h h' vacant ∧
      items.map (fun item => item.toOption.bind Record.key?) = [some 5, some 105] ∧
      h.hasOffsetMap = false ∧
      ∃ mapping ∈ (Mapping.build ⟨[.scalar "id" .u32, .scalar "name" .text]⟩ m.descriptors
        h.indexColumn.toNat false).toOption, mapping.fields.length = 2 :=
    exists_widening (by decide +kernel)
  obtain ⟨m, items, h, h', vacant, hw, hkeys, hfixed, mapping, hmapping, _⟩ := hrun
  exact ⟨m, items, h, h', vacant, hw, hkeys,
    ((session_of_widens rfl rfl hw.session hw.sound hw.widens).1 hfixed).1 mapping
      (ok_of_toOption hmapping)⟩

/-- A file of one record that does not open with a vacant section besides. -/
def Refused (file : List UInt32 → Bytes) (schema : Schema) (place : UInt32) (e : Error) : Prop :=
  (∃ m items h h' vacant,
    Widening (file []) (file (vacantWords place)) schema m items h h' vacant ∧
      items.length = 1) ∧
    session ⟨file (vacantWords place), 0, none⟩ schema .default = .error e

/-- A file of one record whose key is in an index table, in a section before others. -/
def indexedValue (others : List UInt32) : Bytes :=
  wordFile .wdc2 ([1, 1, 4, 0, 0, 0, 0, 0, 0, 4, 1, 0, 0, 24, 0, 0,
    .ofNat (others.length / 9 + 1)] ++
    [0, 0, .ofNat (136 + 4 * others.length), 1, 0, 0, 0, 4, 0] ++ others ++
    [0, 0x200000, 0, 0, 0, 0, 0, 70, 300])

/-- A file of one record that an offset map locates, in a section before others. -/
def locatedKey (others : List UInt32) : Bytes :=
  let place : UInt32 := .ofNat (136 + 4 * others.length)
  wordFile .wdc2 ([1, 1, 4, 0, 0, 0, 5, 5, 0, 1, 1, 0, 0, 24, 0, 0,
    .ofNat (others.length / 9 + 1)] ++ [0, 0, place, 1, 0, 0, place + 4, 0, 0] ++ others ++
    [0, 0x200000, 0, 0, 0, 0, 0, 5, place]) ++ [4, 0]

theorem refused_indexedValue_locatedKey :
    Refused indexedValue ⟨[.scalar "id" .u32, .scalar "value" .u32]⟩ 7
        (.invalid (.elementsExhausted "value" 1 0)) ∧
      Refused locatedKey ⟨[.scalar "id" .u32]⟩ 64 (.invalid (.recordAreaReversed 0 64)) :=
  ⟨⟨exists_widening (by decide +kernel), by decide +kernel⟩,
    exists_widening (by decide +kernel), by decide +kernel⟩

end Reader

end ClientTable
