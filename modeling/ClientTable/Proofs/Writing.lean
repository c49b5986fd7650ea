import ClientTable.Bytes.Lemmas
import ClientTable.Header.Parser
import ClientTable.Lookup.CopyTable
import ClientTable.Lookup.OffsetMap
import ClientTable.Lookup.RelationshipTable
import ClientTable.Descriptor.StorageInfo

/-!
Writing what the parsers read. Behind anything that has been written, the parser goes on with
whatever follows, so that what is written piece by piece is read piece by piece.
-/

namespace ClientTable

def halfBytes (word : UInt16) : Bytes :=
  littleEndianBytes 2 word.toNat

def longBytes (word : UInt64) : Bytes :=
  littleEndianBytes 8 word.toNat

theorem length_halfBytes (word : UInt16) : (halfBytes word).length = 2 :=
  length_littleEndianBytes 2 word.toNat

theorem length_wordBytes (word : UInt32) : (wordBytes word).length = 4 :=
  length_littleEndianBytes 4 word.toNat

theorem length_longBytes (word : UInt64) : (longBytes word).length = 8 :=
  length_littleEndianBytes 8 word.toNat

theorem toNat_ofNat_of_lt {n : Nat} (h : n < wordLimit) : (UInt32.ofNat n).toNat = n :=
  UInt32.toNat_ofNat_of_lt' h

theorem ofNat_ne_zero_of_lt {n : Nat} (hne : n ≠ 0) (h : n < wordLimit) : UInt32.ofNat n ≠ 0 := by
  intro hzero
  have htoNat : (UInt32.ofNat n).toNat = 0 := congrArg UInt32.toNat hzero
  rw [toNat_ofNat_of_lt h] at htoNat
  exact hne htoNat

namespace Parse

variable {α β : Type}

/-- At the given position the bytes are read as `a`, whatever follows them. -/
def Reads (item : Parse α) (position : Nat) (bytes : Bytes) (a : α) : Prop :=
  ∀ rest, item.on ⟨bytes ++ rest, position⟩ = (.ok a, ⟨rest, position + bytes.length⟩)

theorem reads_pure (position : Nat) (a : α) : Reads (pure a) position [] a :=
  fun _ => rfl

theorem reads_position (start : Nat) : Reads position start [] start :=
  fun _ => rfl

theorem Reads.bind {item : Parse α} {next : α → Parse β} {start : Nat} {xs ys : Bytes} {a : α}
    {b : β} (h : Reads item start xs a) (hnext : Reads (next a) (start + xs.length) ys b) :
    Reads (item >>= next) start (xs ++ ys) b := by
  intro rest
  rw [List.append_assoc, Attempt.on_bind_of_ok (h (ys ++ rest)), hnext rest, List.length_append,
    Nat.add_assoc]

theorem Reads.bind_nil {item : Parse α} {next : α → Parse β} {start : Nat} {bytes : Bytes}
    {a : α} {b : β} (h : Reads item start bytes a)
    (hnext : Reads (next a) (start + bytes.length) [] b) :
    Reads (item >>= next) start bytes b := by
  have hread := h.bind hnext
  rw [List.append_nil] at hread
  exact hread

theorem Reads.bind_pure {item : Parse α} {start : Nat} {bytes : Bytes} {a : α}
    (h : Reads item start bytes a) (f : α → β) :
    Reads (do return f (← item)) start bytes (f a) :=
  h.bind_nil (reads_pure _ (f a))

theorem Reads.decode {item : Parse α} {bytes : Bytes} {a : α} (h : Reads item 0 bytes a) :
    Parse.decode item bytes = .ok a := by
  have hrun := h []
  rw [List.append_nil] at hrun
  unfold Parse.decode Input.ofBytes
  rw [hrun]

theorem reads_take {count : Nat} {bytes : Bytes} (h : bytes.length = count) (start : Nat) :
    Reads (take count) start bytes bytes := by
  intro rest
  subst h
  exact on_take_append bytes rest start

theorem reads_number (width : Nat) {n : Nat} (h : n < 256 ^ width) (start : Nat) :
    Reads (number width) start (littleEndianBytes width n) n := by
  have hread := (reads_take (length_littleEndianBytes width n) start).bind_pure littleEndian
  rw [littleEndian_littleEndianBytes h] at hread
  exact hread

theorem reads_u8 (start : Nat) (byte : UInt8) : Reads u8 start [byte] byte := by
  have hread := (reads_number 1 byte.toNat_lt start).bind_pure UInt8.ofNat
  have hbytes : littleEndianBytes 1 byte.toNat = [byte] := by simp [littleEndianBytes]
  rw [hbytes, UInt8.ofNat_toNat] at hread
  exact hread

theorem reads_u16 (start : Nat) (word : UInt16) : Reads u16 start (halfBytes word) word := by
  have hread := (reads_number 2 word.toNat_lt start).bind_pure UInt16.ofNat
  rw [UInt16.ofNat_toNat] at hread
  exact hread

theorem reads_u32 (start : Nat) (word : UInt32) : Reads u32 start (wordBytes word) word := by
  have hread := (reads_number 4 word.toNat_lt start).bind_pure UInt32.ofNat
  rw [UInt32.ofNat_toNat] at hread
  exact hread

theorem reads_u64 (start : Nat) (word : UInt64) : Reads u64 start (longBytes word) word := by
  have hread := (reads_number 8 word.toNat_lt start).bind_pure UInt64.ofNat
  rw [UInt64.ofNat_toNat] at hread
  exact hread

theorem reads_many {item : Parse α} {write : α → Bytes}
    (h : ∀ start a, Reads item start (write a) a) (start : Nat) (items : List α) :
    Reads (many item items.length) start (items.flatMap write) items := by
  induction items generalizing start with
  | nil => exact reads_pure start []
  | cons a items ih => exact (h start a).bind ((ih _).bind_pure (a :: ·))

end Parse

open Parse

namespace FieldInfo

def bytes (info : FieldInfo) : Bytes :=
  halfBytes info.missingBits ++ halfBytes info.position

theorem length_bytes (info : FieldInfo) : info.bytes.length = 4 := by
  simp only [bytes, List.length_append, length_halfBytes]

theorem reads_parse (start : Nat) (info : FieldInfo) : Reads parse start info.bytes info :=
  (reads_u16 _ _).bind ((reads_u16 _ _).bind_pure _)

end FieldInfo

namespace StorageInfo

def bytes (info : StorageInfo) : Bytes :=
  halfBytes info.bitOffset ++ (halfBytes info.bitSize ++ (wordBytes info.chunkSize ++
    (wordBytes info.code ++ (wordBytes info.first ++ (wordBytes info.second ++
      wordBytes info.third)))))

theorem length_bytes (info : StorageInfo) : info.bytes.length = entrySize := by
  simp only [bytes, List.length_append, length_halfBytes, length_wordBytes, entrySize]

theorem reads_parse (start : Nat) (info : StorageInfo) : Reads parse start info.bytes info :=
  (reads_u16 _ _).bind ((reads_u16 _ _).bind ((reads_u32 _ _).bind ((reads_u32 _ _).bind
    ((reads_u32 _ _).bind ((reads_u32 _ _).bind ((reads_u32 _ _).bind_pure _))))))

end StorageInfo

namespace KeyedWord

def bytes (entry : KeyedWord) : Bytes :=
  wordBytes entry.key ++ wordBytes entry.word

theorem length_bytes (entry : KeyedWord) : entry.bytes.length = entrySize := by
  simp only [bytes, List.length_append, length_wordBytes, entrySize]

theorem reads_parse (start : Nat) (entry : KeyedWord) : Reads parse start entry.bytes entry :=
  (reads_u32 _ _).bind ((reads_u32 _ _).bind_pure _)

end KeyedWord

namespace Copy

def bytes (copy : Copy) : Bytes :=
  wordBytes copy.newKey ++ wordBytes copy.sourceKey

theorem length_bytes (copy : Copy) : copy.bytes.length = CopyTable.entrySize := by
  simp only [bytes, List.length_append, length_wordBytes, CopyTable.entrySize]

theorem reads_parse (start : Nat) (copy : Copy) : Reads parse start copy.bytes copy :=
  (reads_u32 _ _).bind ((reads_u32 _ _).bind_pure _)

end Copy

namespace RowLocation

def bytes (l : RowLocation) : Bytes :=
  wordBytes l.offset ++ halfBytes l.length

theorem length_bytes (l : RowLocation) : l.bytes.length = entrySize := by
  simp only [bytes, List.length_append, length_wordBytes, length_halfBytes, entrySize]

theorem reads_parse (start : Nat) (l : RowLocation) : Reads parse start l.bytes l :=
  (reads_u32 _ _).bind ((reads_u16 _ _).bind_pure _)

end RowLocation

namespace SectionHeader

def bytes (s : SectionHeader) : Bytes :=
  longBytes s.tactKeyHash ++ (wordBytes s.fileOffset ++ (wordBytes s.recordCount ++
    (wordBytes s.stringTableSize ++ (wordBytes s.copyTableSize ++ (wordBytes s.offsetMapOffset ++
      (wordBytes s.idListSize ++ wordBytes s.relationshipDataSize))))))

theorem length_bytes (s : SectionHeader) : s.bytes.length = 36 := by
  simp only [bytes, List.length_append, length_longBytes, length_wordBytes]

theorem reads_parse (start : Nat) (s : SectionHeader) : Reads parse start s.bytes s :=
  (reads_u64 _ _).bind ((reads_u32 _ _).bind ((reads_u32 _ _).bind ((reads_u32 _ _).bind
    ((reads_u32 _ _).bind ((reads_u32 _ _).bind ((reads_u32 _ _).bind
      ((reads_u32 _ _).bind_pure _)))))))

end SectionHeader

namespace Header

def buildBytes (timestamp : UInt32) (h : Header) : Bytes :=
  wordBytes h.tableHash ++ (wordBytes h.build ++ (wordBytes timestamp ++
    (wordBytes h.minIndex ++ (wordBytes h.maxIndex ++ (wordBytes h.locale ++
      wordBytes h.copyTableSize)))))

def flaggedBytes (h : Header) : Bytes :=
  wordBytes h.tableHash ++ (wordBytes h.layoutHash ++ (wordBytes h.minIndex ++
    (wordBytes h.maxIndex ++ (wordBytes h.locale ++ (wordBytes h.copyTableSize ++
      (halfBytes h.flags.bits ++ halfBytes h.indexColumn))))))

def commonSizeBytes (h : Header) : Bytes :=
  wordBytes h.totalFieldCount ++ wordBytes h.commonDataSize

def storageSizesBytes (h : Header) : Bytes :=
  wordBytes h.totalFieldCount ++ (wordBytes h.storageSizes.bitpackedDataOffset ++
    (wordBytes h.storageSizes.lookupColumnCount ++ (wordBytes h.storageSizes.offsetMapOffset ++
      (wordBytes h.storageSizes.idListSize ++ (wordBytes h.storageSizes.fieldStorageInfoSize ++
        (wordBytes h.commonDataSize ++ (wordBytes h.storageSizes.palletDataSize ++
          wordBytes h.storageSizes.relationshipDataSize)))))))

def sectionedBytes (h : Header) : Bytes :=
  wordBytes h.tableHash ++ (wordBytes h.layoutHash ++ (wordBytes h.minIndex ++
    (wordBytes h.maxIndex ++ (wordBytes h.locale ++ (halfBytes h.flags.bits ++
      (halfBytes h.indexColumn ++ (wordBytes h.totalFieldCount ++
        (wordBytes h.storageSizes.bitpackedDataOffset ++
          (wordBytes h.storageSizes.lookupColumnCount ++
            (wordBytes h.storageSizes.fieldStorageInfoSize ++ (wordBytes h.commonDataSize ++
              (wordBytes h.storageSizes.palletDataSize ++
                (wordBytes (UInt32.ofNat h.sections.length) ++
                  h.sections.flatMap SectionHeader.bytes)))))))))))))

theorem reads_parseBuild (timestamp : UInt32) (base h : Header) (start : Nat) :
    Reads base.parseBuild start (h.buildBytes timestamp) { base with
      tableHash := h.tableHash
      build := h.build
      minIndex := h.minIndex
      maxIndex := h.maxIndex
      locale := h.locale
      copyTableSize := h.copyTableSize } :=
  (reads_u32 _ _).bind ((reads_u32 _ _).bind ((reads_u32 _ _).bind ((reads_u32 _ _).bind
    ((reads_u32 _ _).bind ((reads_u32 _ _).bind ((reads_u32 _ _).bind_pure _))))))

theorem reads_parseFlagged (base h : Header) (start : Nat) :
    Reads base.parseFlagged start h.flaggedBytes { base with
      tableHash := h.tableHash
      layoutHash := h.layoutHash
      minIndex := h.minIndex
      maxIndex := h.maxIndex
      locale := h.locale
      copyTableSize := h.copyTableSize
      flags := h.flags
      indexColumn := h.indexColumn } :=
  (reads_u32 _ _).bind ((reads_u32 _ _).bind ((reads_u32 _ _).bind ((reads_u32 _ _).bind
    ((reads_u32 _ _).bind ((reads_u32 _ _).bind ((reads_u16 _ _).bind
      ((reads_u16 _ _).bind_pure _)))))))

theorem reads_parseCommonSize (base h : Header) (start : Nat) :
    Reads base.parseCommonSize start h.commonSizeBytes { base with
      totalFieldCount := h.totalFieldCount
      commonDataSize := h.commonDataSize } :=
  (reads_u32 _ _).bind ((reads_u32 _ _).bind_pure _)

theorem reads_parseStorageSizes (base h : Header) (start : Nat) :
    Reads base.parseStorageSizes start h.storageSizesBytes { base with
      totalFieldCount := h.totalFieldCount
      commonDataSize := h.commonDataSize
      storage := some h.storageSizes } :=
  (reads_u32 _ _).bind ((reads_u32 _ _).bind ((reads_u32 _ _).bind ((reads_u32 _ _).bind
    ((reads_u32 _ _).bind ((reads_u32 _ _).bind ((reads_u32 _ _).bind ((reads_u32 _ _).bind
      ((reads_u32 _ _).bind_pure _))))))))

theorem reads_parseSectioned {base h : Header} (hsections : h.sections.length < wordLimit)
    (hcount : announcedRecords h.sections = base.recordCount.toNat)
    (hstorage : h.storageSizes = { StorageSizes.zero with
      bitpackedDataOffset := h.storageSizes.bitpackedDataOffset
      lookupColumnCount := h.storageSizes.lookupColumnCount
      fieldStorageInfoSize := h.storageSizes.fieldStorageInfoSize
      palletDataSize := h.storageSizes.palletDataSize }) (start : Nat) :
    Reads base.parseSectioned start h.sectionedBytes { base with
      tableHash := h.tableHash
      layoutHash := h.layoutHash
      minIndex := h.minIndex
      maxIndex := h.maxIndex
      locale := h.locale
      flags := h.flags
      indexColumn := h.indexColumn
      totalFieldCount := h.totalFieldCount
      commonDataSize := h.commonDataSize
      storage := some h.storageSizes
      sections := h.sections } := by
  have hlength : (UInt32.ofNat h.sections.length).toNat = h.sections.length :=
    toNat_ofNat_of_lt hsections
  have hagree : ¬ announcedRecords h.sections ≠ base.recordCount.toNat := fun h => h hcount
  iterate 5 refine (reads_u32 _ _).bind ?_
  iterate 2 refine (reads_u16 _ _).bind ?_
  iterate 7 refine (reads_u32 _ _).bind ?_
  rw [hlength]
  refine (reads_many SectionHeader.reads_parse _ h.sections).bind_nil ?_
  dsimp only
  rw [if_neg hagree, ← hstorage]
  exact reads_pure _ _

/-- Behind the words that every format has comes what the format adds. -/
theorem reads_parse {signature : Signature} (hclient : signature.needsClientMetadata = false)
    {recordCount : UInt32} (hcount : recordCount ≠ 0)
    {fieldCount recordSize stringTableSize : UInt32} {extension : Bytes} {h : Header} {start : Nat}
    (hextension : Reads
      (basic signature recordCount fieldCount recordSize stringTableSize).parseExtension
      (start + 16) extension h) :
    Reads (parse signature) start
      (wordBytes recordCount ++ (wordBytes fieldCount ++ (wordBytes recordSize ++
        (wordBytes stringTableSize ++ extension))))
      (some { h.withTotalFieldCount with headerEnd := start + 16 + extension.length }) := by
  have hstart : start + (wordBytes recordCount).length + (wordBytes fieldCount).length +
      (wordBytes recordSize).length + (wordBytes stringTableSize).length = start + 16 := by
    simp only [length_wordBytes]
  unfold parse
  rw [hclient]
  refine (reads_u32 _ _).bind ?_
  rw [if_neg hcount]
  iterate 3 refine (reads_u32 _ _).bind ?_
  rw [hstart]
  refine hextension.bind_nil ?_
  exact (reads_position _).bind_nil (reads_pure _ _)

end Header

theorem Header.withTotalFieldCount_headerEnd (h : Header) (headerEnd : Nat) :
    { h.withTotalFieldCount with headerEnd := headerEnd } =
      { h with
        totalFieldCount := h.withTotalFieldCount.totalFieldCount
        headerEnd := headerEnd } := by
  unfold withTotalFieldCount
  split <;> rfl

theorem Header.withTotalFieldCount_of_eq {h : Header} (htotal : h.totalFieldCount = h.fieldCount) :
    h.withTotalFieldCount = h := by
  cases h
  cases htotal
  unfold withTotalFieldCount
  split <;> rfl

theorem Signature.reads_parse (signature : Signature) (start : Nat) :
    Reads Signature.parse start signature.magic signature := by
  refine (reads_take signature.length_magic start).bind_nil ?_
  rw [Signature.ofMagic?_magic]
  exact reads_pure _ signature

/-- A block that lists foreign keys behind the positions of their records. -/
structure RelationshipBlock where
  entries : List KeyedWord
  minKey : UInt32
  maxKey : UInt32

def RelationshipBlock.bytes (block : RelationshipBlock) : Bytes :=
  wordBytes (UInt32.ofNat block.entries.length) ++ (wordBytes block.minKey ++
    (wordBytes block.maxKey ++ block.entries.flatMap KeyedWord.bytes))

theorem length_flatten_of_length {α : Type} {rows : List (List α)} {size : Nat}
    (h : ∀ row ∈ rows, row.length = size) : rows.flatten.length = rows.length * size := by
  induction rows with
  | nil => rw [List.flatten_nil, List.length_nil, List.length_nil, Nat.zero_mul]
  | cons row rows ih =>
      rw [List.flatten_cons, List.length_append, h row (List.mem_cons_self ..),
        ih fun other hother => h other (List.mem_cons_of_mem _ hother), List.length_cons,
        Nat.succ_mul, Nat.add_comm]

theorem eq_take_append_cons {α : Type} {items : List α} {i : Nat} {item : α}
    (h : items[i]? = some item) : items = items.take i ++ item :: items.drop (i + 1) := by
  obtain ⟨hlt, rfl⟩ := List.getElem?_eq_some_iff.mp h
  rw [← List.drop_eq_getElem_cons hlt, List.take_append_drop]

theorem length_flatMap_of_length {α β : Type} {write : α → List β} {size : Nat}
    (h : ∀ a, (write a).length = size) (items : List α) :
    (items.flatMap write).length = items.length * size := by
  have hsize : ∀ row ∈ items.map write, row.length = size := by
    intro row hrow
    obtain ⟨a, _, rfl⟩ := List.mem_map.mp hrow
    exact h a
  rw [List.flatMap_def, length_flatten_of_length hsize, List.length_map]

namespace RelationshipBlock

theorem length_bytes (block : RelationshipBlock) :
    block.bytes.length = 12 + block.entries.length * KeyedWord.entrySize := by
  simp only [bytes, List.length_append, length_wordBytes,
    length_flatMap_of_length KeyedWord.length_bytes]
  omega

theorem bytes_ne_nil (block : RelationshipBlock) : block.bytes ≠ [] := by
  intro hnil
  have hlength := block.length_bytes
  rw [hnil, List.length_nil] at hlength
  omega

theorem reads_parseListed {block : RelationshipBlock} (h : block.entries.length < wordLimit)
    (start : Nat) :
    Reads (RelationshipTable.parseListed block.bytes.length) start block.bytes
      ⟨block.entries⟩ := by
  have hcount : (UInt32.ofNat block.entries.length).toNat = block.entries.length :=
    toNat_ofNat_of_lt h
  have hfits : ¬ block.bytes.length <
      12 + (UInt32.ofNat block.entries.length).toNat * KeyedWord.entrySize := by
    rw [hcount, length_bytes]
    exact Nat.lt_irrefl _
  refine (reads_u32 _ _).bind ((reads_u32 _ _).bind ((reads_u32 _ _).bind ?_))
  dsimp only
  rw [if_neg hfits, hcount]
  exact (reads_many KeyedWord.reads_parse _ block.entries).bind_pure _

end RelationshipBlock

end ClientTable
