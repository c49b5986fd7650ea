import ClientTable.Machine.Drive
import ClientTable.Metadata

namespace ClientTable.Machine

def parseSectioned (h : Header) : Guarded Input Header := do
  let tableHash ← Parse.u32
  let layoutHash ← Parse.u32
  let minIndex ← Parse.u32
  let maxIndex ← Parse.u32
  let locale ← Parse.u32
  let flags ← Parse.u16
  let indexColumn ← Parse.u16
  let totalFieldCount ← Parse.u32
  let bitpackedDataOffset ← Parse.u32
  let lookupColumnCount ← Parse.u32
  let fieldStorageInfoSize ← Parse.u32
  let commonDataSize ← Parse.u32
  let palletDataSize ← Parse.u32
  let sectionCount ← Parse.u32
  let storage := { StorageSizes.zero with
    bitpackedDataOffset, lookupColumnCount, fieldStorageInfoSize, palletDataSize }
  let sections ← Parse.many SectionHeader.parse sectionCount.toNat
  let found ← Checked.sum positionLimit (sections.map fun s => s.recordCount.toNat)
  if found ≠ h.recordCount.toNat then
    throw (.countMismatch .sectionRecords h.recordCount.toNat found)
  return { h with
    tableHash, layoutHash, minIndex, maxIndex, locale, flags := ⟨flags⟩, indexColumn,
    totalFieldCount, commonDataSize, storage := some storage, sections }

def parseExtension (h : Header) : Guarded Input Header :=
  match h.signature with
  | .wdc2 => parseSectioned h
  | _ => h.parseExtension

def parseHeader (signature : Signature) : Guarded Input (Option Header) := do
  if signature.needsClientMetadata then throw (.needsClientMetadata signature)
  let recordCount ← Parse.u32
  if recordCount = 0 then return none
  let fieldCount ← Parse.u32
  let recordSize ← Parse.u32
  let stringTableSize ← Parse.u32
  let h ← parseExtension (.basic signature recordCount fieldCount recordSize stringTableSize)
  return some { h.withTotalFieldCount with headerEnd := ← Parse.position }

def parseStart : Guarded Input (Signature × Option Header) := do
  let signature ← Signature.parse
  return (signature, ← parseHeader signature)

def idCount (h : Header) : Checked Nat :=
  if h.maxIndex < h.minIndex then
    throw (.invalid (.idRangeReversed h.maxIndex.toNat h.minIndex.toNat))
  else do
    let span ← Checked.sub h.maxIndex.toNat h.minIndex.toNat
    Checked.add positionLimit span 1

def extentLength (h : Header) (start : Nat) : Extent → Checked Nat
  | .bytes count => Checked.fit positionLimit count
  | .upTo stop =>
    if stop < start then throw (.invalid (.recordAreaReversed stop start))
    else Checked.sub stop start
  | .perId size => do
    let count ← idCount h
    Checked.mul positionLimit count size

def place (h : Header) : (start : Nat) → List Layout.Request → Checked (List Segment)
  | _, [] => return []
  | start, (kind, extent) :: requests => do
    let length ← extentLength h start extent
    if positionLimit ≤ start + length then
      throw (.invalid (.segmentOverflow kind start length))
    let segments ← place h (start + length) requests
    return ⟨kind, start, length⟩ :: segments

def planSection (h : Header) (index : Nat) (s : SectionHeader) : Checked SectionLayout := do
  return ⟨index, s.recordCount, ← place h s.fileOffset.toNat (Layout.sectionRequests h s)⟩

def planSections (h : Header) : (index : Nat) → List SectionHeader → Checked (List SectionLayout)
  | _, [] => return []
  | index, s :: rest => do
    let first ← planSection h index s
    let others ← planSections h (index + 1) rest
    return first :: others

def plan (h : Header) : Checked Layout :=
  match h.signature with
  | .wdbc | .wdb2 => return .ofChain h (← place h h.headerEnd (Layout.simpleRequests h))
  | .wdb5 | .wdb6 => return .ofChain h (← place h h.headerEnd (Layout.flaggedRequests h))
  | .wdc1 => return .ofChain h (← place h h.headerEnd (Layout.storedRequests h))
  | .wdc2 => do
    let shared ← place h h.headerEnd (Layout.sharedRequests h)
    let sections ← planSections h 0 h.sections
    return ⟨shared, sections⟩
  | .wdb3 | .wdb4 => throw (.unsupported .layoutOfClientVersion)

def bitOffset (info : FieldInfo) : Checked Nat :=
  Checked.mul wordLimit info.position.toNat 8

/-- How many elements an entry has in records of `width` bits, where `rest` follows it, the first of
them at `following`. -/
def elements (h : Header) (width following : Nat) (info : FieldInfo) (bitSize : Nat) :
    (rest : List FieldInfo) → Checked Nat
  | next :: _ =>
    if next.position < info.position then
      throw (.invalid (.fieldOrder following next.position.toNat info.position.toNat))
    else do
      let gap ← Checked.sub next.position.toNat info.position.toNat
      let bits ← Checked.mul wordLimit gap 8
      Checked.div bits bitSize
  | [] =>
    if h.hasOffsetMap then return 1
    else do
      let start ← bitOffset info
      return (← Checked.div (width - start) bitSize) % wordLimit

def fieldDescriptors (h : Header) (width : Nat) : (index : Nat) → List FieldInfo →
    Checked (List Descriptor)
  | _, [] => return []
  | index, info :: rest => do
    let bitSize ← info.bitSize
    let start ← bitOffset info
    let following ← Checked.add positionLimit index 1
    let count ← elements h width following info bitSize rest
    let others ← fieldDescriptors h width (index + 1) rest
    return ⟨start, bitSize, max count 1, .plain false⟩ :: others

def fieldColumns (h : Header) (infos : List FieldInfo) : Checked (List Descriptor) := do
  let width ← Checked.mul positionLimit h.recordSize.toNat 8
  fieldDescriptors h width 0 infos

def storedDescriptor (index : Nat) (field? : Option FieldInfo) (offsets : ChunkOffsets)
    (info : StorageInfo) : Checked (Descriptor × ChunkOffsets) := do
  match ← Compression.ofCode info.code with
  | .plain =>
    let bits ← info.plainBits index field?
    let count ← Checked.div info.bitSize.toNat bits
    return (⟨info.bitOffset.toNat, bits, max count 1, .plain false⟩, offsets)
  | _ => info.descriptor index field? offsets

def storedDescriptors (fields : List FieldInfo) : (index : Nat) → ChunkOffsets →
    List StorageInfo → Checked (List Descriptor)
  | _, _, [] => return []
  | index, offsets, info :: rest => do
    let (first, offsets) ← storedDescriptor index fields[index]? offsets info
    let others ← storedDescriptors fields (index + 1) offsets rest
    return first :: others

def recordBits (d : Descriptor) : Checked Nat :=
  match d.storage with
  | .plain _ | .immediate _ | .pallet _ => Checked.mul positionLimit d.bitSize d.cardinality
  | .palletArray _ => return d.bitSize
  | .common .. | .relationship => return 0

def bitStop (d : Descriptor) : Checked Nat := do
  let bits ← recordBits d
  Checked.add positionLimit d.bitOffset bits

def checkWidth (h : Header) (descriptors : List Descriptor) : Checked Unit :=
  if h.hasOffsetMap then return
  else do
    let width ← Checked.mul positionLimit h.recordSize.toNat 8
    let sizes ← descriptors.mapM recordBits
    let stops ← (descriptors.filter fun d => 0 < d.recordBits).mapM bitStop
    let sum ← Checked.sum positionLimit sizes
    if width < stops.foldl max 0 ∨ width < sum then
      throw (.invalid (.fieldsExceedRecord (max (stops.foldl max 0) sum) width))
    else
      -- What is left over is padding.
      let _ ← Checked.sub width sum

def readFieldInfos (layout : Layout) : Guarded Drive (List FieldInfo) := do
  match layout.findShared? .fieldInfo with
  | none => return []
  | some segment =>
    let block ← Drive.readSegment segment
    let count ← Checked.div segment.length 4
    Parse.decode (Parse.many FieldInfo.parse count) block

def readStorageInfos (layout : Layout) : Guarded Drive (List StorageInfo) := do
  match layout.findShared? .fieldStorageInfo with
  | none => return []
  | some segment =>
    let left ← Checked.rem segment.length StorageInfo.entrySize
    if left ≠ 0 then throw (.invalid (.storageInfoSize segment.length))
    let block ← Drive.readSegment segment
    let count ← Checked.div segment.length StorageInfo.entrySize
    Parse.decode (Parse.many StorageInfo.parse count) block

def readColumns (h : Header) (layout : Layout) (schema : Schema) :
    Guarded Drive (List Descriptor) :=
  match h.signature with
  | .wdbc | .wdb2 => return Descriptor.consecutive 0 schema.fields
  | .wdb5 => do
    fieldColumns h (← readFieldInfos layout)
  | .wdb6 => do
    let columns ← fieldColumns h (← readFieldInfos layout)
    return columns ++ (← Descriptor.commonColumns h)
  | .wdc1 | .wdc2 => do
    let fields ← readFieldInfos layout
    storedDescriptors fields 0 ⟨0, 0⟩ (← readStorageInfos layout)
  | .wdb3 | .wdb4 => throw (.unsupported .fieldsOfClientVersion)

def readDescriptors (h : Header) (layout : Layout) (schema : Schema) :
    Guarded Drive (List Descriptor) := do
  let columns ← readColumns h layout schema
  let descriptors ←
    if Descriptor.hasRelationships layout then
      pure (columns ++ [← Descriptor.relationshipColumn h])
    else pure columns
  checkWidth h descriptors
  return descriptors

def readPopulated (h : Header) (schema : Schema) : Guarded Drive Metadata := do
  let layout ← plan h
  let descriptors ← readDescriptors h layout schema
  let mappings ← Metadata.sectionMappings h layout descriptors schema
  return ⟨h.signature, some h, layout, descriptors, schema, mappings⟩

def readMetadata (schema : Schema) : Guarded Drive Metadata := do
  Drive.seek 0
  match ← Drive.words parseStart with
  | (signature, none) => return .ofEmptyFile signature schema
  | (_, some h) => readPopulated h schema

def sectionCopies (layout : SectionLayout) : Checked Nat :=
  match layout.find? .copyTable with
  | some segment => Checked.div segment.length 8
  | none => return 0

def copyCount (m : Metadata) : Checked Nat := do
  Checked.sum positionLimit (← m.layout.sections.mapM sectionCopies)

def totalRecordCount (m : Metadata) : Checked Nat := do
  Checked.add positionLimit m.recordCount (← copyCount m)

end ClientTable.Machine
