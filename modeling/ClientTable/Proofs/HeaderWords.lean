import ClientTable.Proofs.MachineOpening
import ClientTable.Proofs.Writing

namespace ClientTable

open Parse

namespace Parse

variable {α β : Type}

/-- At the given position the bytes lead to this outcome, whatever follows them, and all of them
have been read then. -/
def Ends (item : Parse α) (position : Nat) (bytes : Bytes) (outcome : Except Error α) : Prop :=
  ∀ rest, item.on ⟨bytes ++ rest, position⟩ = (outcome, ⟨rest, position + bytes.length⟩)

theorem Reads.ends {item : Parse α} {start : Nat} {bytes : Bytes} {a : α}
    (h : Reads item start bytes a) : Ends item start bytes (.ok a) :=
  h

theorem ends_throw (e : Error) (start : Nat) : Ends (throw e : Parse α) start [] (.error e) :=
  fun _ => rfl

theorem Reads.bind_ends {item : Parse α} {next : α → Parse β} {start : Nat} {xs ys : Bytes} {a : α}
    {outcome : Except Error β} (h : Reads item start xs a)
    (hnext : Ends (next a) (start + xs.length) ys outcome) :
    Ends (item >>= next) start (xs ++ ys) outcome := by
  intro rest
  rw [List.append_assoc, Attempt.on_bind_of_ok (h (ys ++ rest)), hnext rest, List.length_append,
    Nat.add_assoc]

theorem Ends.bind_error {item : Parse α} {start : Nat} {bytes : Bytes} {e : Error}
    (h : Ends item start bytes (.error e)) (next : α → Parse β) :
    Ends (item >>= next) start bytes (.error e) := by
  intro rest
  rw [Attempt.on_bind, h rest]

theorem Ends.map {item : Parse α} {start : Nat} {bytes : Bytes} {outcome : Except Error α}
    (h : Ends item start bytes outcome) (f : α → β) :
    Ends (do return f (← item)) start bytes (outcome.map f) := by
  intro rest
  rw [Attempt.on_bind, h rest]
  cases outcome <;> rfl

theorem Ends.endOfInput_of_append {item : Parse α} {start : Nat} {head tail : Bytes}
    {outcome : Except Error α} (h : Ends item start (head ++ tail) outcome) (hstable : Stable item)
    (htail : tail ≠ []) : (item.on ⟨head, start⟩).1 = .error .endOfInput := by
  rcases hstable ⟨head, start⟩ tail with hend | hsame
  · exact hend
  · have hall := h []
    rw [List.append_nil] at hall
    have hrest : (item.on ⟨head, start⟩).2.rest ++ tail = [] :=
      congrArg (fun run => run.2.rest) (hsame.symm.trans hall)
    exact absurd (List.append_eq_nil_iff.mp hrest).2 htail

end Parse

def Signature.hasTotalFieldCount (s : Signature) : Bool :=
  s = .wdb6 || s.hasStorageInfo

namespace Header

/-- What the format of the header adds to the words that every format has. WDB2 adds a time stamp
that is no part of the header. -/
def extensionBytes (timestamp : UInt32) (h : Header) : Bytes :=
  match h.signature with
  | .wdbc | .wdb3 | .wdb4 => []
  | .wdb2 => h.buildBytes timestamp
  | .wdb5 => h.flaggedBytes
  | .wdb6 => h.flaggedBytes ++ h.commonSizeBytes
  | .wdc1 => h.flaggedBytes ++ h.storageSizesBytes
  | .wdc2 => h.sectionedBytes

/-- The header with the four bytes in front of it. -/
def bytes (timestamp : UInt32) (h : Header) : Bytes :=
  h.signature.magic ++ (wordBytes h.recordCount ++ (wordBytes h.fieldCount ++
    (wordBytes h.recordSize ++ (wordBytes h.stringTableSize ++ h.extensionBytes timestamp))))

/-- The number of bytes of a header. -/
def encodedLength (h : Header) : Nat :=
  match h.signature with
  | .wdbc | .wdb3 | .wdb4 => 20
  | .wdb2 | .wdb5 => 48
  | .wdb6 => 56
  | .wdc1 => 84
  | .wdc2 => 72 + 36 * h.sections.length

section

variable (timestamp : UInt32) (h : Header)

theorem length_buildBytes : (h.buildBytes timestamp).length = 28 := by
  simp only [buildBytes, List.length_append, length_wordBytes]

theorem length_flaggedBytes : h.flaggedBytes.length = 28 := by
  simp only [flaggedBytes, List.length_append, length_wordBytes, length_halfBytes]

theorem length_commonSizeBytes : h.commonSizeBytes.length = 8 := by
  simp only [commonSizeBytes, List.length_append, length_wordBytes]

theorem length_storageSizesBytes : h.storageSizesBytes.length = 36 := by
  simp only [storageSizesBytes, List.length_append, length_wordBytes]

theorem length_sectionedBytes : h.sectionedBytes.length = 52 + 36 * h.sections.length := by
  simp only [sectionedBytes, List.length_append, length_wordBytes, length_halfBytes,
    length_flatMap_of_length SectionHeader.length_bytes]
  omega

theorem length_extensionBytes : 20 + (h.extensionBytes timestamp).length = h.encodedLength := by
  unfold extensionBytes encodedLength
  cases h.signature with
  | wdbc | wdb3 | wdb4 => rfl
  | wdb2 => rw [length_buildBytes]
  | wdb5 => rw [length_flaggedBytes]
  | wdb6 => rw [List.length_append, length_flaggedBytes, length_commonSizeBytes]
  | wdc1 => rw [List.length_append, length_flaggedBytes, length_storageSizesBytes]
  | wdc2 =>
      dsimp only
      rw [length_sectionedBytes]
      omega

theorem length_bytes : (h.bytes timestamp).length = h.encodedLength := by
  rw [← length_extensionBytes timestamp h]
  simp only [bytes, List.length_append, length_wordBytes, Signature.length_magic]
  omega

end

/-- What a file says of the header: words that its format has no place for are zero, and without a
total field count there are no fields besides those that the header counts. -/
def kept (h : Header) : Header where
  signature := h.signature
  recordCount := h.recordCount
  fieldCount := h.fieldCount
  recordSize := h.recordSize
  stringTableSize := h.stringTableSize
  tableHash := if h.signature = .wdbc then 0 else h.tableHash
  layoutHash := if h.signature.hasFieldInfo then h.layoutHash else 0
  build := if h.signature = .wdb2 then h.build else 0
  minIndex := if h.signature = .wdbc then 0 else h.minIndex
  maxIndex := if h.signature = .wdbc then 0 else h.maxIndex
  locale := if h.signature = .wdbc then 0 else h.locale
  copyTableSize := if h.signature = .wdbc ∨ h.signature = .wdc2 then 0 else h.copyTableSize
  flags := if h.signature.hasFieldInfo then h.flags else .none
  indexColumn := if h.signature.hasFieldInfo then h.indexColumn else 0
  totalFieldCount :=
    if h.signature.hasTotalFieldCount ∧ h.totalFieldCount ≠ 0 then h.totalFieldCount
    else h.fieldCount
  commonDataSize := if h.signature.hasTotalFieldCount then h.commonDataSize else 0
  storage :=
    match h.signature with
    | .wdc1 => some h.storageSizes
    | .wdc2 => some { h.storageSizes with
        offsetMapOffset := 0, idListSize := 0, relationshipDataSize := 0 }
    | _ => none
  sections := if h.signature = .wdc2 then h.sections else []
  headerEnd := h.encodedLength

/-- What comes of reading the header: the sections of a sectioned file have to announce as many
records together as the file has. -/
def outcome (h : Header) : Except Error (Signature × Option Header) :=
  if h.signature = .wdc2 ∧ announcedRecords h.sections ≠ h.recordCount.toNat then
    .error (.countMismatch .sectionRecords h.recordCount.toNat (announcedRecords h.sections))
  else .ok (h.signature, some h.kept)

theorem ends_parseSectioned_of_ne (base : Header) {h : Header}
    (hsections : h.sections.length < wordLimit)
    (hcount : announcedRecords h.sections ≠ base.recordCount.toNat) (start : Nat) :
    Ends base.parseSectioned start h.sectionedBytes
      (.error (.countMismatch .sectionRecords base.recordCount.toNat
        (announcedRecords h.sections))) := by
  have hlength : (UInt32.ofNat h.sections.length).toNat = h.sections.length :=
    toNat_ofNat_of_lt hsections
  iterate 5 refine (reads_u32 _ _).bind_ends ?_
  iterate 2 refine (reads_u16 _ _).bind_ends ?_
  iterate 7 refine (reads_u32 _ _).bind_ends ?_
  rw [hlength]
  have hmany := reads_many SectionHeader.reads_parse
  rw [← List.append_nil (h.sections.flatMap SectionHeader.bytes)]
  refine (hmany _ h.sections).bind_ends ?_
  dsimp only
  rw [if_pos hcount]
  exact (ends_throw _ _).bind_error _

/-- Where the rest of a header cannot be read, neither can the header. -/
theorem ends_parse_of_error {signature : Signature}
    (hclient : signature.needsClientMetadata = false) {recordCount : UInt32}
    (hcount : recordCount ≠ 0) {fieldCount recordSize stringTableSize : UInt32}
    {extension : Bytes} {e : Error} {start : Nat}
    (hextension : Ends
      (basic signature recordCount fieldCount recordSize stringTableSize).parseExtension
      (start + 16) extension (.error e)) :
    Ends (parse signature) start
      (wordBytes recordCount ++ (wordBytes fieldCount ++ (wordBytes recordSize ++
        (wordBytes stringTableSize ++ extension)))) (.error e) := by
  have hstart : start + (wordBytes recordCount).length + (wordBytes fieldCount).length +
      (wordBytes recordSize).length + (wordBytes stringTableSize).length = start + 16 := by
    simp only [length_wordBytes]
  unfold parse
  rw [hclient]
  refine (reads_u32 _ _).bind_ends ?_
  rw [if_neg hcount]
  iterate 3 refine (reads_u32 _ _).bind_ends ?_
  rw [hstart]
  exact hextension.bind_error _

def unfilled (h : Header) : Header :=
  { h.kept with
    totalFieldCount := if h.signature.hasTotalFieldCount then h.totalFieldCount else 0
    headerEnd := 0 }

theorem reads_parseSectioned_unfilled {h : Header} (hsignature : h.signature = .wdc2)
    (hsections : h.sections.length < wordLimit)
    (hcount : announcedRecords h.sections = h.recordCount.toNat) (start : Nat) :
    Reads (basic .wdc2 h.recordCount h.fieldCount h.recordSize h.stringTableSize).parseSectioned
      start h.sectionedBytes h.unfilled := by
  let sectioned : StorageSizes :=
    { h.storageSizes with offsetMapOffset := 0, idListSize := 0, relationshipDataSize := 0 }
  have hread := @reads_parseSectioned
    (basic .wdc2 h.recordCount h.fieldCount h.recordSize h.stringTableSize)
    { h with storage := some sectioned } hsections hcount rfl start
  have hunfilled : h.unfilled = { basic .wdc2 h.recordCount h.fieldCount h.recordSize
      h.stringTableSize with
        tableHash := h.tableHash
        layoutHash := h.layoutHash
        minIndex := h.minIndex
        maxIndex := h.maxIndex
        locale := h.locale
        flags := h.flags
        indexColumn := h.indexColumn
        totalFieldCount := h.totalFieldCount
        commonDataSize := h.commonDataSize
        storage := some sectioned
        sections := h.sections } := by
    simp [unfilled, kept, hsignature, basic, Signature.hasFieldInfo, Signature.hasTotalFieldCount,
      Signature.hasStorageInfo, sectioned]
  rw [hunfilled]
  exact hread

theorem reads_parseExtension {h : Header} (timestamp : UInt32)
    (hclient : h.signature.needsClientMetadata = false) (hsections : h.sections.length < wordLimit)
    (hcount : h.signature = .wdc2 → announcedRecords h.sections = h.recordCount.toNat)
    (start : Nat) :
    Reads (basic h.signature h.recordCount h.fieldCount h.recordSize
      h.stringTableSize).parseExtension start (h.extensionBytes timestamp) h.unfilled := by
  by_cases hsectioned : h.signature = .wdc2
  · have hread := reads_parseSectioned_unfilled hsectioned hsections (hcount hsectioned) start
    unfold parseExtension extensionBytes
    rw [hsectioned]
    exact hread
  · obtain ⟨signature⟩ := h
    cases signature with
    | wdb3 | wdb4 => cases hclient
    | wdbc => exact reads_pure start _
    | wdb2 => exact reads_parseBuild timestamp _ _ start
    | wdb5 => exact reads_parseFlagged _ _ start
    | wdb6 => exact (reads_parseFlagged _ _ start).bind (reads_parseCommonSize _ _ _)
    | wdc1 => exact (reads_parseFlagged _ _ start).bind (reads_parseStorageSizes _ _ _)
    | wdc2 => exact absurd rfl hsectioned

theorem withTotalFieldCount_unfilled (h : Header) :
    { h.unfilled.withTotalFieldCount with headerEnd := h.encodedLength } = h.kept := by
  rw [withTotalFieldCount_headerEnd]
  have htotal : h.unfilled.withTotalFieldCount.totalFieldCount = h.kept.totalFieldCount := by
    unfold withTotalFieldCount
    by_cases htotal : h.signature.hasTotalFieldCount = true <;>
      by_cases hzero : h.totalFieldCount = 0 <;> simp [unfilled, kept, htotal, hzero]
  rw [htotal]
  rfl

theorem ends_parse {h : Header} (timestamp : UInt32)
    (hclient : h.signature.needsClientMetadata = false) (hrecords : h.recordCount ≠ 0)
    (hsections : h.sections.length < wordLimit) :
    Ends (parse h.signature) 4
      (wordBytes h.recordCount ++ (wordBytes h.fieldCount ++ (wordBytes h.recordSize ++
        (wordBytes h.stringTableSize ++ h.extensionBytes timestamp))))
      (h.outcome.map Prod.snd) := by
  unfold outcome
  split
  case isTrue hwrong =>
    obtain ⟨hsectioned, hcount⟩ := hwrong
    have hextension := ends_parseSectioned_of_ne
      (basic .wdc2 h.recordCount h.fieldCount h.recordSize h.stringTableSize) hsections hcount
      (4 + 16)
    refine ends_parse_of_error hclient hrecords ?_
    rw [parseExtension, extensionBytes, hsectioned]
    exact hextension
  case isFalse hright =>
    have hcount : h.signature = .wdc2 → announcedRecords h.sections = h.recordCount.toNat := by
      intro hsectioned
      by_contra hcount
      exact hright ⟨hsectioned, hcount⟩
    have hread := reads_parse hclient hrecords
      (reads_parseExtension timestamp hclient hsections hcount (4 + 16))
    rw [h.length_extensionBytes timestamp, withTotalFieldCount_unfilled] at hread
    exact hread.ends

theorem ends_parseStart {h : Header} (timestamp : UInt32)
    (hclient : h.signature.needsClientMetadata = false) (hrecords : h.recordCount ≠ 0)
    (hsections : h.sections.length < wordLimit) :
    Ends Metadata.parseStart 0 (h.bytes timestamp) h.outcome := by
  refine (Signature.reads_parse h.signature 0).bind_ends ?_
  have hparse := (ends_parse timestamp hclient hrecords hsections).map fun header =>
    (h.signature, header)
  have houtcome : (h.outcome.map Prod.snd).map (fun header => (h.signature, header)) =
      h.outcome := by
    unfold outcome
    split <;> rfl
  rw [houtcome] at hparse
  rw [Signature.length_magic]
  exact hparse

/-- Reading a header undoes writing it. Whatever follows the bytes of a header, the words that its
format keeps are read from them, and the input is left behind the last of them; sections that do
not announce as many records as the file are the only fault. What is cut short ends too early. -/
theorem on_parseStart_bytes {h : Header} (timestamp : UInt32)
    (hclient : h.signature.needsClientMetadata = false) (hrecords : h.recordCount ≠ 0)
    (hsections : h.sections.length < wordLimit) :
    (h.bytes timestamp).length = h.encodedLength ∧
      (∀ rest,
        Metadata.parseStart.on ⟨h.bytes timestamp ++ rest, 0⟩ =
            (h.outcome, ⟨rest, h.encodedLength⟩) ∧
          Machine.parseStart.on ⟨h.bytes timestamp ++ rest, 0⟩ =
            .ok (h.outcome, ⟨rest, h.encodedLength⟩)) ∧
      ∀ head, head <+: h.bytes timestamp → head ≠ h.bytes timestamp →
        (Metadata.parseStart.on ⟨head, 0⟩).1 = .error .endOfInput ∧
          ∃ after, Machine.parseStart.on ⟨head, 0⟩ = .ok (.error .endOfInput, after) := by
  have hends := ends_parseStart timestamp hclient hrecords hsections
  have hlength := h.length_bytes timestamp
  refine ⟨hlength, fun rest => ?_, ?_⟩
  · have hrun := hends rest
    rw [Nat.zero_add, hlength] at hrun
    obtain ⟨_, hmachine, rfl⟩ :=
      Machine.mirrors_parseStart ⟨h.bytes timestamp ++ rest, 0⟩ _ rfl
    rw [hrun] at hmachine
    exact ⟨hrun, hmachine⟩
  · rintro head ⟨tail, htail⟩ hstrict
    have hmissing : tail ≠ [] := by
      rintro rfl
      exact hstrict (by simpa using htail)
    rw [← htail] at hends
    have hend := hends.endOfInput_of_append Metadata.stable_parseStart hmissing
    obtain ⟨after, hmachine, -⟩ := Machine.mirrors_parseStart ⟨head, 0⟩ _ rfl
    rw [hend] at hmachine
    exact ⟨hend, after, hmachine⟩

/-- A WDC2 header with two sections. The words for which its format has no place are set all the
same, and the total field count is missing. -/
def twoSections : Header :=
  { Header.basic .wdc2 5 3 8 40 with
    tableHash := 0x01020304, layoutHash := 0xA0B0C0D0, build := 7, minIndex := 1, maxIndex := 9,
    locale := 0xFFFFFFFF, copyTableSize := 16, flags := ⟨0xFFFF⟩, indexColumn := 2,
    commonDataSize := 24, storage := some ⟨1, 2, 72, 12, 3, 4, 5⟩,
    sections := [⟨0x1122334455667788, 300, 2, 30, 8, 0, 8, 0⟩, ⟨1, 400, 3, 10, 0, 500, 12, 20⟩] }

def twoSectionsKept : Header :=
  { Header.twoSections with
    build := 0, copyTableSize := 0, totalFieldCount := 3,
    storage := some ⟨1, 2, 72, 12, 0, 0, 0⟩, headerEnd := 144 }

theorem on_parseStart_twoSections :
    (twoSections.bytes 0).length = 144 ∧
      Metadata.parseStart.on ⟨twoSections.bytes 0 ++ [0xAB], 0⟩ =
        (.ok (.wdc2, some twoSectionsKept), ⟨[0xAB], 144⟩) ∧
      (Metadata.parseStart.on ⟨(twoSections.bytes 0).take 143, 0⟩).1 = .error .endOfInput := by
  obtain ⟨hlength, hread, hcut⟩ :=
    on_parseStart_bytes (h := twoSections) 0 (by decide) (by decide) (by decide)
  have houtcome : twoSections.outcome = .ok (.wdc2, some twoSectionsKept) := by decide +kernel
  refine ⟨hlength, ?_, (hcut _ (List.take_prefix _ _) ?_).1⟩
  · rw [← houtcome]
    exact (hread [0xAB]).1
  · intro hwhole
    have hcount := congrArg List.length hwhole
    rw [List.length_take, hlength] at hcount
    revert hcount
    decide

end Header

end ClientTable
