import ClientTable.Signature

namespace ClientTable

/-- The flag bits of a header. Bits without a meaning are kept. -/
structure HeaderFlags where
  bits : UInt16
  deriving DecidableEq, Repr

namespace HeaderFlags

def none : HeaderFlags :=
  ⟨0⟩

/-- Records vary in length and are found through an offset map. -/
def hasOffsetMap (f : HeaderFlags) : Bool :=
  f.bits &&& 0x01 ≠ 0

/-- A block with one foreign key per id follows the offset map. -/
def hasRelationships (f : HeaderFlags) : Bool :=
  f.bits &&& 0x02 ≠ 0

/-- Keys are kept in an index table of their own. -/
def hasIndexTable (f : HeaderFlags) : Bool :=
  f.bits &&& 0x04 ≠ 0

end HeaderFlags

/-- The sizes that formats with compressed fields declare besides. -/
structure StorageSizes where
  bitpackedDataOffset : UInt32
  lookupColumnCount : UInt32
  fieldStorageInfoSize : UInt32
  palletDataSize : UInt32
  offsetMapOffset : UInt32
  idListSize : UInt32
  relationshipDataSize : UInt32
  deriving DecidableEq, Repr

def StorageSizes.zero : StorageSizes :=
  ⟨0, 0, 0, 0, 0, 0, 0⟩

/-- The words in front of a file that announce one of its sections. -/
structure SectionHeader where
  tactKeyHash : UInt64
  fileOffset : UInt32
  recordCount : UInt32
  stringTableSize : UInt32
  copyTableSize : UInt32
  offsetMapOffset : UInt32
  idListSize : UInt32
  relationshipDataSize : UInt32
  deriving DecidableEq, Repr

/-- A whole file header. -/
structure Header where
  signature : Signature
  recordCount : UInt32
  fieldCount : UInt32
  recordSize : UInt32
  /-- In WDB5 and WDB6 files with an offset map this is the position of the map. -/
  stringTableSize : UInt32
  tableHash : UInt32
  layoutHash : UInt32
  build : UInt32
  minIndex : UInt32
  maxIndex : UInt32
  locale : UInt32
  copyTableSize : UInt32
  flags : HeaderFlags
  indexColumn : UInt16
  totalFieldCount : UInt32
  commonDataSize : UInt32
  storage : Option StorageSizes
  sections : List SectionHeader
  /-- The first position after the header. -/
  headerEnd : Nat
  deriving DecidableEq, Repr

namespace Header

/-- A header of which nothing but the words that every format has is known. -/
def basic (signature : Signature) (recordCount fieldCount recordSize stringTableSize : UInt32) :
    Header where
  signature := signature
  recordCount := recordCount
  fieldCount := fieldCount
  recordSize := recordSize
  stringTableSize := stringTableSize
  tableHash := 0
  layoutHash := 0
  build := 0
  minIndex := 0
  maxIndex := 0
  locale := 0
  copyTableSize := 0
  flags := .none
  indexColumn := 0
  totalFieldCount := 0
  commonDataSize := 0
  storage := none
  sections := []
  headerEnd := 0

def hasOffsetMap (h : Header) : Bool :=
  h.flags.hasOffsetMap

/-- The number of sections; a file that declares none is one section itself. -/
def sectionCount (h : Header) : Nat :=
  max h.sections.length 1

def storageSizes (h : Header) : StorageSizes :=
  h.storage.getD .zero

def recordBits (h : Header) : Nat :=
  h.recordSize.toNat * 8

end Header

end ClientTable
