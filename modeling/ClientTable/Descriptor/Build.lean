import ClientTable.Descriptor.StorageInfo
import ClientTable.Schema
import ClientTable.Source

namespace ClientTable.Descriptor

/-- The largest 32-bit number, at which bit offsets stop growing. -/
def offsetLimit : Nat :=
  wordLimit - 1

/-- Descriptors of fields that stand one after the other from `offset` on. -/
def consecutive : (offset : Nat) → List Field → List Descriptor
  | _, [] => []
  | offset, f :: fields =>
    let next := min (offset + min (f.kind.bits * f.arity) offsetLimit) offsetLimit
    ⟨offset, f.kind.bits, f.arity, .plain f.kind.isSigned⟩ :: consecutive next fields

/-- The first bit after a record of fixed size, where columns outside of the records are filed. -/
def recordEnd (h : Header) : Except Error Nat :=
  if wordLimit ≤ h.recordBits then throw (.invalid (.recordTooWide h.recordSize.toNat))
  else return h.recordBits

/-- The common-data columns that a WDB6 file has besides the fields of its records. -/
def commonColumns (h : Header) : Except Error (List Descriptor) := do
  let offset ← recordEnd h
  return List.replicate (h.totalFieldCount.toNat - h.fieldCount.toNat)
    ⟨offset, 32, 1, .common 0 .none⟩

def relationshipColumn (h : Header) : Except Error Descriptor := do
  return ⟨← recordEnd h, 32, 1, .relationship⟩

/-- Records of fixed size have to hold all of their fields. -/
def checkWidth (h : Header) (descriptors : List Descriptor) : Except Error Unit :=
  if h.hasOffsetMap then return
  else
    let stored := descriptors.filter fun d => 0 < d.recordBits
    let reach := (stored.map bitStop).foldl max 0
    let sum := total (descriptors.map recordBits)
    if h.recordBits < reach ∨ h.recordBits < sum then
      throw (.invalid (.fieldsExceedRecord (max reach sum) h.recordBits))
    else return

def readFieldInfos (source : Source) (layout : Layout) : Reading (List FieldInfo) := do
  match layout.findShared? .fieldInfo with
  | none => return []
  | some segment =>
    let block ← source.readSegment segment
    Parse.decode (Parse.many FieldInfo.parse (segment.length / 4)) block

def readStorageInfos (source : Source) (layout : Layout) : Reading (List StorageInfo) := do
  match layout.findShared? .fieldStorageInfo with
  | none => return []
  | some segment =>
    if segment.length % StorageInfo.entrySize ≠ 0 then
      throw (.invalid (.storageInfoSize segment.length))
    let block ← source.readSegment segment
    Parse.decode (Parse.many StorageInfo.parse (segment.length / StorageInfo.entrySize)) block

/-- The fields of the records, and the common-data columns. -/
def readColumns (source : Source) (h : Header) (layout : Layout) (schema : Schema) :
    Reading (List Descriptor) :=
  match h.signature with
  | .wdbc | .wdb2 => return consecutive 0 schema.fields
  | .wdb5 => do
    FieldInfo.descriptors h 0 (← readFieldInfos source layout)
  | .wdb6 => do
    let columns ← FieldInfo.descriptors h 0 (← readFieldInfos source layout)
    return columns ++ (← commonColumns h)
  | .wdc1 | .wdc2 => do
    let fields ← readFieldInfos source layout
    StorageInfo.descriptors fields 0 ⟨0, 0⟩ (← readStorageInfos source layout)
  | .wdb3 | .wdb4 => throw (.unsupported .fieldsOfClientVersion)

def hasRelationships (layout : Layout) : Bool :=
  layout.sections.any fun s => (s.find? .relationshipTable).isSome

/-- The descriptors of a file, in the order in which schemas refer to them. -/
def readAll (source : Source) (h : Header) (layout : Layout) (schema : Schema) :
    Reading (List Descriptor) := do
  let columns ← readColumns source h layout schema
  let descriptors ←
    if hasRelationships layout then pure (columns ++ [← relationshipColumn h]) else pure columns
  checkWidth h descriptors
  return descriptors

end ClientTable.Descriptor
