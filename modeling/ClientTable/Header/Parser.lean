import ClientTable.Header
import ClientTable.Parse
import ClientTable.Quantity

namespace ClientTable

def Signature.parse : Parse Signature := do
  let magic ← Parse.take 4
  match Signature.ofMagic? magic with
  | some signature => return signature
  | none => throw (.unknownSignature magic)

def SectionHeader.parse : Parse SectionHeader := do
  return {
    tactKeyHash := ← Parse.u64
    fileOffset := ← Parse.u32
    recordCount := ← Parse.u32
    stringTableSize := ← Parse.u32
    copyTableSize := ← Parse.u32
    offsetMapOffset := ← Parse.u32
    idListSize := ← Parse.u32
    relationshipDataSize := ← Parse.u32 }

namespace Header

/-- The rest of a WDB2 header. Its timestamp is not kept. -/
def parseBuild (h : Header) : Parse Header := do
  let tableHash ← Parse.u32
  let build ← Parse.u32
  let _ ← Parse.u32
  let minIndex ← Parse.u32
  let maxIndex ← Parse.u32
  let locale ← Parse.u32
  let copyTableSize ← Parse.u32
  return { h with tableHash, build, minIndex, maxIndex, locale, copyTableSize }

def parseFlagged (h : Header) : Parse Header := do
  let tableHash ← Parse.u32
  let layoutHash ← Parse.u32
  let minIndex ← Parse.u32
  let maxIndex ← Parse.u32
  let locale ← Parse.u32
  let copyTableSize ← Parse.u32
  let flags ← Parse.u16
  let indexColumn ← Parse.u16
  return { h with
    tableHash, layoutHash, minIndex, maxIndex, locale, copyTableSize, flags := ⟨flags⟩,
    indexColumn }

def parseCommonSize (h : Header) : Parse Header := do
  let totalFieldCount ← Parse.u32
  let commonDataSize ← Parse.u32
  return { h with totalFieldCount, commonDataSize }

def parseStorageSizes (h : Header) : Parse Header := do
  let totalFieldCount ← Parse.u32
  let bitpackedDataOffset ← Parse.u32
  let lookupColumnCount ← Parse.u32
  let offsetMapOffset ← Parse.u32
  let idListSize ← Parse.u32
  let fieldStorageInfoSize ← Parse.u32
  let commonDataSize ← Parse.u32
  let palletDataSize ← Parse.u32
  let relationshipDataSize ← Parse.u32
  let storage := StorageSizes.mk bitpackedDataOffset lookupColumnCount fieldStorageInfoSize
    palletDataSize offsetMapOffset idListSize relationshipDataSize
  return { h with totalFieldCount, commonDataSize, storage := some storage }

def announcedRecords (sections : List SectionHeader) : Nat :=
  total (sections.map fun s => s.recordCount.toNat)

/-- The rest of a WDC2 header. The records of the sections have to add up to those of the file. -/
def parseSectioned (h : Header) : Parse Header := do
  let tableHash ← Parse.u32
  let layoutHash ← Parse.u32
  let minIndex ← Parse.u32
  let maxIndex ← Parse.u32
  let locale ← Parse.u32
  let flags ← Parse.u16
  let indexColumn ← Parse.u16
  let totalFieldCount ← Parse.u32
  let bitpackedDataOffset ← Parse.u32
  let lookupColumnCount ← Parse.u32
  let fieldStorageInfoSize ← Parse.u32
  let commonDataSize ← Parse.u32
  let palletDataSize ← Parse.u32
  let sectionCount ← Parse.u32
  let storage := { StorageSizes.zero with
    bitpackedDataOffset, lookupColumnCount, fieldStorageInfoSize, palletDataSize }
  let sections ← Parse.many SectionHeader.parse sectionCount.toNat
  let found := announcedRecords sections
  if found ≠ h.recordCount.toNat then
    throw (.countMismatch .sectionRecords h.recordCount.toNat found)
  return { h with
    tableHash, layoutHash, minIndex, maxIndex, locale, flags := ⟨flags⟩, indexColumn,
    totalFieldCount, commonDataSize, storage := some storage, sections }

/-- What the format of the header adds to the words that every format has. -/
def parseExtension (h : Header) : Parse Header :=
  match h.signature with
  | .wdbc => return h
  | .wdb2 => h.parseBuild
  | .wdb5 => h.parseFlagged
  | .wdb6 => do (← h.parseFlagged).parseCommonSize
  | .wdc1 => do (← h.parseFlagged).parseStorageSizes
  | .wdc2 => h.parseSectioned
  | .wdb3 | .wdb4 => throw (.needsClientMetadata h.signature)

/-- A header without a total field count has no fields besides those it counts. -/
def withTotalFieldCount (h : Header) : Header :=
  if h.totalFieldCount = 0 then { h with totalFieldCount := h.fieldCount } else h

/-- The header that follows the signature, or nothing where the file declares no records. -/
def parse (signature : Signature) : Parse (Option Header) := do
  if signature.needsClientMetadata then throw (.needsClientMetadata signature)
  let recordCount ← Parse.u32
  if recordCount = 0 then return none
  let fieldCount ← Parse.u32
  let recordSize ← Parse.u32
  let stringTableSize ← Parse.u32
  let h ← (basic signature recordCount fieldCount recordSize stringTableSize).parseExtension
  return some { h.withTotalFieldCount with headerEnd := ← Parse.position }

end Header

end ClientTable
