import ClientTable.Reader

namespace ClientTable

namespace Reading

variable {α β : Type} {excused : Error → Prop}

/-- Whatever has been handed out before, the two readings have the same outcome, unless the first
one fails with an excused error. -/
def Matches (excused : Error → Prop) (m n : Reading α) : Prop :=
  ∀ count count', (m.on count).1 = (n.on count').1 ∨
    ∃ e, (m.on count).1 = .error e ∧ excused e

/-- The outcome of a reading before which nothing has been handed out. -/
def outcome (m : Reading α) : Except Error α :=
  (m.on 0).1

theorem matches_lift (x : Except Error α) : Matches excused (liftM x) (liftM x) := by
  intro count count'
  left
  rfl

theorem matches_pure (a : α) : Matches excused (pure a) (pure a) :=
  matches_lift (.ok a)

theorem matches_throw (e : Error) :
    Matches excused (throw e : Reading α) (throw e) :=
  matches_lift (.error e)

theorem matches_throw_bind (e : Error) (f g : α → Reading β) :
    Matches excused ((throw e : Reading α) >>= f) ((throw e : Reading α) >>= g) := by
  intro count count'
  left
  rfl

theorem Matches.bind {m n : Reading α} {f g : α → Reading β} (hm : Matches excused m n)
    (hf : ∀ a, Matches excused (f a) (g a)) : Matches excused (m >>= f) (n >>= g) := by
  intro count count'
  rw [Attempt.on_bind, Attempt.on_bind]
  rcases hm count count' with hsame | ⟨e, hfail, he⟩
  · rcases hmc : m.on count with ⟨x, after⟩
    rcases hnc : n.on count' with ⟨y, after'⟩
    rw [hmc, hnc] at hsame
    obtain rfl : x = y := hsame
    cases x with
    | error e =>
        left
        rfl
    | ok a => exact hf a after after'
  · right
    refine ⟨e, ?_, he⟩
    rcases hmc : m.on count with ⟨x, after⟩
    rw [hmc] at hfail
    obtain rfl : x = .error e := hfail
    rfl

theorem Matches.outcome_eq_or {m n : Reading α} (h : Matches excused m n) :
    m.outcome = n.outcome ∨ ∃ e, m.outcome = .error e ∧ excused e :=
  h 0 0

theorem Matches.on_eq {m : Reading α} (h : Matches (fun _ => False) m m) (count : Nat) :
    (m.on count).1 = m.outcome := by
  rcases h count 0 with hsame | ⟨_, _, hfalse⟩
  · exact hsame
  · exact hfalse.elim

end Reading

/-- The input with more bytes at its end. -/
def Input.extend (i : Input) (more : Bytes) : Input :=
  ⟨i.rest ++ more, i.position⟩

namespace Parse

variable {α β : Type}

/-- More bytes after the input change nothing, unless the input ended too early. -/
def Stable (item : Parse α) : Prop :=
  ∀ input more, (item.on input).1 = .error .endOfInput ∨
    item.on (input.extend more) = ((item.on input).1, (item.on input).2.extend more)

theorem stable_lift (x : Except Error α) : Stable (liftM x) := by
  intro input more
  right
  rfl

theorem stable_pure (a : α) : Stable (pure a) :=
  stable_lift (.ok a)

theorem stable_throw (e : Error) : Stable (throw e : Parse α) :=
  stable_lift (.error e)

theorem stable_throw_bind (e : Error) (next : α → Parse β) :
    Stable ((throw e : Parse α) >>= next) := by
  intro input more
  right
  rfl

theorem Stable.bind {item : Parse α} {next : α → Parse β} (h : Stable item)
    (hnext : ∀ a, Stable (next a)) : Stable (item >>= next) := by
  intro input more
  rw [Attempt.on_bind, Attempt.on_bind]
  rcases hi : item.on input with ⟨x, after⟩
  rcases h input more with hend | hsame
  · left
    rw [hi] at hend
    obtain rfl : x = .error .endOfInput := hend
    rfl
  · rw [hsame, hi]
    cases x with
    | error e =>
        right
        rfl
    | ok a => exact hnext a after more

theorem stable_take (count : Nat) : Stable (take count) := by
  intro input more
  rcases Nat.lt_or_ge input.rest.length count with hlt | hle
  · left
    rw [on_take_of_lt hlt]
  · right
    have hmore : count ≤ (input.extend more).rest.length := by
      simp only [Input.extend, List.length_append]
      omega
    rw [on_take_of_le hle, on_take_of_le hmore]
    simp only [Input.extend, List.take_append_of_le_length hle, List.drop_append_of_le_length hle]

theorem stable_number (width : Nat) : Stable (number width) :=
  (stable_take width).bind fun bytes => stable_pure (littleEndian bytes)

theorem stable_u16 : Stable u16 :=
  (stable_number 2).bind fun n => stable_pure (UInt16.ofNat n)

theorem stable_u32 : Stable u32 :=
  (stable_number 4).bind fun n => stable_pure (UInt32.ofNat n)

theorem stable_u64 : Stable u64 :=
  (stable_number 8).bind fun n => stable_pure (UInt64.ofNat n)

theorem stable_position : Stable position := by
  intro input more
  right
  rfl

theorem stable_many {item : Parse α} (h : Stable item) (count : Nat) :
    Stable (many item count) := by
  induction count with
  | zero => exact stable_pure []
  | succ count ih =>
      exact h.bind fun first => ih.bind fun others => stable_pure (first :: others)

end Parse

theorem Signature.stable_parse : Parse.Stable Signature.parse := by
  refine (Parse.stable_take 4).bind fun magic => ?_
  cases Signature.ofMagic? magic with
  | some signature => exact Parse.stable_pure signature
  | none => exact Parse.stable_throw (.unknownSignature magic)

theorem SectionHeader.stable_parse : Parse.Stable SectionHeader.parse :=
  Parse.stable_u64.bind fun _ => Parse.stable_u32.bind fun _ => Parse.stable_u32.bind fun _ =>
    Parse.stable_u32.bind fun _ => Parse.stable_u32.bind fun _ => Parse.stable_u32.bind fun _ =>
      Parse.stable_u32.bind fun _ => Parse.stable_u32.bind fun _ => Parse.stable_pure _

namespace Header

open Parse

theorem stable_parseBuild (h : Header) : Stable h.parseBuild :=
  stable_u32.bind fun _ => stable_u32.bind fun _ => stable_u32.bind fun _ =>
    stable_u32.bind fun _ => stable_u32.bind fun _ => stable_u32.bind fun _ =>
      stable_u32.bind fun _ => stable_pure _

theorem stable_parseFlagged (h : Header) : Stable h.parseFlagged :=
  stable_u32.bind fun _ => stable_u32.bind fun _ => stable_u32.bind fun _ =>
    stable_u32.bind fun _ => stable_u32.bind fun _ => stable_u32.bind fun _ =>
      stable_u16.bind fun _ => stable_u16.bind fun _ => stable_pure _

theorem stable_parseCommonSize (h : Header) : Stable h.parseCommonSize :=
  stable_u32.bind fun _ => stable_u32.bind fun _ => stable_pure _

theorem stable_parseStorageSizes (h : Header) : Stable h.parseStorageSizes :=
  stable_u32.bind fun _ => stable_u32.bind fun _ => stable_u32.bind fun _ =>
    stable_u32.bind fun _ => stable_u32.bind fun _ => stable_u32.bind fun _ =>
      stable_u32.bind fun _ => stable_u32.bind fun _ => stable_u32.bind fun _ => stable_pure _

theorem stable_parseSectioned (h : Header) : Stable h.parseSectioned := by
  refine stable_u32.bind fun tableHash => stable_u32.bind fun layoutHash =>
    stable_u32.bind fun minIndex => stable_u32.bind fun maxIndex => stable_u32.bind fun locale =>
    stable_u16.bind fun flags => stable_u16.bind fun indexColumn =>
    stable_u32.bind fun totalFieldCount => stable_u32.bind fun bitpackedDataOffset =>
    stable_u32.bind fun lookupColumnCount => stable_u32.bind fun fieldStorageInfoSize =>
    stable_u32.bind fun commonDataSize => stable_u32.bind fun palletDataSize =>
    stable_u32.bind fun sectionCount => ?_
  refine (stable_many SectionHeader.stable_parse _).bind fun sections => ?_
  dsimp only
  split
  · exact stable_throw_bind _ _
  · exact stable_pure _

theorem stable_parseExtension (h : Header) : Stable h.parseExtension := by
  unfold parseExtension
  cases h.signature with
  | wdbc => exact stable_pure h
  | wdb2 => exact h.stable_parseBuild
  | wdb3 => exact stable_throw _
  | wdb4 => exact stable_throw _
  | wdb5 => exact h.stable_parseFlagged
  | wdb6 => exact h.stable_parseFlagged.bind stable_parseCommonSize
  | wdc1 => exact h.stable_parseFlagged.bind stable_parseStorageSizes
  | wdc2 => exact h.stable_parseSectioned

theorem stable_parse (signature : Signature) : Stable (parse signature) := by
  unfold parse
  split
  · exact stable_throw_bind _ _
  · refine stable_u32.bind fun recordCount => ?_
    split
    · exact stable_pure none
    · exact stable_u32.bind fun fieldCount => stable_u32.bind fun recordSize =>
        stable_u32.bind fun stringTableSize => (stable_parseExtension _).bind fun h =>
          stable_position.bind fun headerEnd => stable_pure _

end Header

theorem Metadata.stable_parseStart : Parse.Stable Metadata.parseStart :=
  Signature.stable_parse.bind fun signature =>
    (Header.stable_parse signature).bind fun header => Parse.stable_pure (signature, header)

namespace Source

/-- Every block and the words in front of the file read alike from both sources, unless reading
from the first fails with an excused error. -/
structure Matches (excused : Error → Prop) (s t : Source) : Prop where
  block : ∀ start length, s.block start length = t.block start length ∨
    ∃ e, s.block start length = .error e ∧ excused e
  start : Reading.Matches excused (s.parse Metadata.parseStart) (t.parse Metadata.parseStart)

variable {excused : Error → Prop} {s t : Source}

theorem Matches.readBlock (h : Matches excused s t) (start length : Nat) :
    Reading.Matches excused (s.readBlock start length) (t.readBlock start length) := by
  intro count count'
  rw [on_readBlock, on_readBlock]
  exact h.block start length

theorem Matches.readSegment (h : Matches excused s t) (segment : Segment) :
    Reading.Matches excused (s.readSegment segment) (t.readSegment segment) :=
  h.readBlock segment.start segment.length

theorem matches_self (s : Source) : Matches excused s s where
  block _ _ := Or.inl rfl
  start _ _ := Or.inl rfl

end Source

section

open Reading

variable {excused : Error → Prop} {s t : Source}

theorem StringTable.matches_read (h : Source.Matches excused s t) (segment : Segment)
    (intern : Bool) :
    Matches excused (StringTable.read s segment intern) (StringTable.read t segment intern) :=
  (h.readSegment segment).bind fun _ => matches_pure _

theorem RowLocation.matches_readAll (h : Source.Matches excused s t) (segment records : Segment)
    (recordCount : UInt32) :
    Matches excused (RowLocation.readAll s segment records recordCount)
      (RowLocation.readAll t segment records recordCount) :=
  (matches_lift _).bind fun _ => (h.readSegment segment).bind fun _ =>
    (matches_lift _).bind fun _ => matches_lift _

theorem IndexTable.matches_read (h : Source.Matches excused s t) (segment : Segment)
    (recordCount : UInt32) :
    Matches excused (IndexTable.read s segment recordCount)
      (IndexTable.read t segment recordCount) := by
  refine (matches_lift _).bind fun count => ?_
  split
  · exact matches_throw_bind _ _ _
  · exact (h.readSegment segment).bind fun _ => (matches_lift _).bind fun _ => matches_pure _

theorem CopyTable.matches_read (h : Source.Matches excused s t) (segment : Segment) :
    Matches excused (CopyTable.read s segment) (CopyTable.read t segment) :=
  (matches_lift _).bind fun _ => (h.readSegment segment).bind fun _ =>
    (matches_lift _).bind fun _ => matches_pure _

theorem RelationshipTable.matches_read (h : Source.Matches excused s t) (segment : Segment)
    (signature : Signature) :
    Matches excused (RelationshipTable.read s segment signature)
      (RelationshipTable.read t segment signature) := by
  refine (h.readSegment segment).bind fun block => ?_
  cases signature <;> exact matches_lift _

theorem PalletTable.matches_read (h : Source.Matches excused s t) (segment : Segment) :
    Matches excused (PalletTable.read s segment) (PalletTable.read t segment) :=
  (h.readSegment segment).bind fun _ => matches_pure _

theorem CommonTable.matches_read (h : Source.Matches excused s t) (segment : Segment)
    (header : Header) (descriptors : List Descriptor) :
    Matches excused (CommonTable.read s segment header descriptors)
      (CommonTable.read t segment header descriptors) := by
  refine (h.readSegment segment).bind fun block => ?_
  split
  · exact (matches_lift _).bind fun _ => matches_pure _
  · exact (matches_lift _).bind fun _ => matches_pure _

namespace Descriptor

theorem matches_readFieldInfos (h : Source.Matches excused s t) (layout : Layout) :
    Matches excused (readFieldInfos s layout) (readFieldInfos t layout) := by
  unfold readFieldInfos
  cases layout.findShared? .fieldInfo with
  | none => exact matches_pure []
  | some segment => exact (h.readSegment segment).bind fun _ => matches_lift _

theorem matches_readStorageInfos (h : Source.Matches excused s t) (layout : Layout) :
    Matches excused (readStorageInfos s layout) (readStorageInfos t layout) := by
  unfold readStorageInfos
  cases layout.findShared? .fieldStorageInfo with
  | none => exact matches_pure []
  | some segment =>
      dsimp only
      split
      · exact matches_throw_bind _ _ _
      · exact (h.readSegment segment).bind fun _ => matches_lift _

theorem matches_readColumns (h : Source.Matches excused s t) (header : Header) (layout : Layout)
    (schema : Schema) :
    Matches excused (readColumns s header layout schema) (readColumns t header layout schema) := by
  unfold readColumns
  cases header.signature with
  | wdbc => exact matches_pure _
  | wdb2 => exact matches_pure _
  | wdb3 => exact matches_throw _
  | wdb4 => exact matches_throw _
  | wdb5 => exact (matches_readFieldInfos h layout).bind fun _ => matches_lift _
  | wdb6 =>
      exact (matches_readFieldInfos h layout).bind fun _ => (matches_lift _).bind fun _ =>
        (matches_lift _).bind fun _ => matches_pure _
  | wdc1 =>
      exact (matches_readFieldInfos h layout).bind fun _ =>
        (matches_readStorageInfos h layout).bind fun _ => matches_lift _
  | wdc2 =>
      exact (matches_readFieldInfos h layout).bind fun _ =>
        (matches_readStorageInfos h layout).bind fun _ => matches_lift _

theorem matches_readAll (h : Source.Matches excused s t) (header : Header) (layout : Layout)
    (schema : Schema) :
    Matches excused (readAll s header layout schema) (readAll t header layout schema) := by
  refine (matches_readColumns h header layout schema).bind fun columns => ?_
  split
  · exact (matches_lift _).bind fun _ => (matches_pure _).bind fun _ =>
      (matches_lift _).bind fun _ => matches_pure _
  · exact (matches_pure _).bind fun _ => (matches_lift _).bind fun _ => matches_pure _

end Descriptor

namespace Metadata

theorem matches_readPopulated (h : Source.Matches excused s t) (header : Header)
    (schema : Schema) :
    Matches excused (readPopulated s header schema) (readPopulated t header schema) :=
  (matches_lift _).bind fun layout => (Descriptor.matches_readAll h header layout schema).bind
    fun _ => (matches_lift _).bind fun _ => matches_pure _

theorem matches_read (h : Source.Matches excused s t) (schema : Schema) :
    Matches excused (read s schema) (read t schema) := by
  refine h.start.bind fun ⟨signature, header⟩ => ?_
  cases header with
  | none => exact matches_pure _
  | some header => exact matches_readPopulated h header schema

end Metadata

namespace SharedTables

theorem matches_readPallet (h : Source.Matches excused s t) (layout : Layout) :
    Matches excused (readPallet s layout) (readPallet t layout) := by
  unfold readPallet
  cases layout.findShared? .palletData with
  | none => exact matches_pure none
  | some segment => exact (PalletTable.matches_read h segment).bind fun _ => matches_pure _

theorem matches_readCommon (h : Source.Matches excused s t) (m : Metadata) (header : Header) :
    Matches excused (readCommon s m header) (readCommon t m header) := by
  unfold readCommon
  cases m.layout.findShared? .commonData with
  | none => exact matches_pure none
  | some segment =>
      exact (CommonTable.matches_read h segment header m.descriptors).bind fun _ => matches_pure _

theorem matches_read (h : Source.Matches excused s t) (m : Metadata) :
    Matches excused (read s m) (read t m) := by
  unfold read
  cases m.header with
  | none => exact matches_pure _
  | some header =>
      exact (matches_readPallet h m.layout).bind fun _ =>
        (matches_readCommon h m header).bind fun _ => matches_pure _

end SharedTables

namespace Section

theorem matches_readStrings (h : Source.Matches excused s t) (layout : SectionLayout)
    (records : Segment) (intern : Bool) :
    Matches excused (readStrings s layout records intern)
      (readStrings t layout records intern) := by
  unfold readStrings
  cases layout.find? .stringBlock with
  | none => exact matches_pure _
  | some segment => exact (StringTable.matches_read h segment intern).bind fun _ => matches_pure _

theorem matches_readRows (h : Source.Matches excused s t) (header : Header)
    (layout : SectionLayout) (records : Segment) :
    Matches excused (readRows s header layout records) (readRows t header layout records) := by
  unfold readRows
  split
  · cases layout.find? .offsetMap with
    | none => exact matches_throw _
    | some segment =>
        exact (RowLocation.matches_readAll h segment records layout.recordCount).bind
          fun _ => matches_pure _
  · exact matches_pure _

theorem matches_readKeys (h : Source.Matches excused s t) (layout : SectionLayout) :
    Matches excused (readKeys s layout) (readKeys t layout) := by
  unfold readKeys
  cases layout.find? .indexTable with
  | none => exact matches_pure none
  | some segment =>
      exact (IndexTable.matches_read h segment layout.recordCount).bind fun _ => matches_pure _

theorem matches_readCopies (h : Source.Matches excused s t) (layout : SectionLayout) :
    Matches excused (readCopies s layout) (readCopies t layout) := by
  unfold readCopies
  cases layout.find? .copyTable with
  | none => exact matches_pure _
  | some segment => exact CopyTable.matches_read h segment

theorem matches_readRelationships (h : Source.Matches excused s t) (header : Header)
    (layout : SectionLayout) :
    Matches excused (readRelationships s header layout) (readRelationships t header layout) := by
  unfold readRelationships
  cases layout.find? .relationshipTable with
  | none => exact matches_pure none
  | some segment =>
      exact (RelationshipTable.matches_read h segment header.signature).bind fun _ =>
        matches_pure _

theorem matches_read (h : Source.Matches excused s t) (header : Header) (layout : SectionLayout)
    (intern : Bool) :
    Matches excused (read s header layout intern) (read t header layout intern) := by
  unfold read
  cases layout.segments.find? fun segment => segment.kind = .records with
  | none => exact matches_throw _
  | some records =>
      exact (matches_readStrings h layout records intern).bind fun _ =>
        (matches_readRows h header layout records).bind fun _ =>
          (matches_readKeys h layout).bind fun _ => (matches_readCopies h layout).bind fun _ =>
            (matches_readRelationships h header layout).bind fun _ => matches_pure _

end Section

end

end ClientTable
