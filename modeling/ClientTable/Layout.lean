import ClientTable.Error
import ClientTable.Header
import ClientTable.Quantity

/-!
Planning where the segments of a file lie. Each format lists its segments in a fixed order, and they
stand back to back; the header alone decides their lengths. A segment of no bytes is planned all the
same.
-/

namespace ClientTable

/-- How far a segment reaches. -/
inductive Extent where
  /-- A known number of bytes. -/
  | bytes (count : Nat)
  /-- Up to a known position. -/
  | upTo (stop : Nat)
  /-- A slot of this many bytes for every id between the lowest and the highest. -/
  | perId (size : Nat)
  deriving DecidableEq, Repr

namespace Extent

/-- The number of ids that a header admits. -/
def idCount (h : Header) : Except Error Nat :=
  if h.maxIndex < h.minIndex then
    throw (.invalid (.idRangeReversed h.maxIndex.toNat h.minIndex.toNat))
  else
    return h.maxIndex.toNat - h.minIndex.toNat + 1

/-- The number of bytes of a segment that starts at `start`. -/
def length (h : Header) (start : Nat) : Extent → Except Error Nat
  | bytes count => return count
  | upTo stop =>
    if stop < start then throw (.invalid (.recordAreaReversed stop start)) else return stop - start
  | perId size => do return (← idCount h) * size

end Extent

namespace Layout

/-- A segment to be placed. -/
abbrev Request := SegmentKind × Extent

/-- Places segments back to back, the first at `start`. -/
def place (h : Header) : (start : Nat) → List Request → Except Error (List Segment)
  | _, [] => return []
  | start, (kind, extent) :: requests => do
    let length ← extent.length h start
    if positionLimit ≤ start + length then
      throw (.invalid (.segmentOverflow kind start length))
    let segments ← place h (start + length) requests
    return ⟨kind, start, length⟩ :: segments

def sized (kind : SegmentKind) (size : UInt32) : Request :=
  (kind, .bytes size.toNat)

/-- A segment of `count` entries of four bytes. -/
def words (kind : SegmentKind) (count : UInt32) : Request :=
  (kind, .bytes (count.toNat * 4))

/-- The record area: rows of one size, or rows of any size up to the offset map. -/
def recordArea (h : Header) (recordCount offsetMap : UInt32) : Request :=
  (.records,
    if h.hasOffsetMap then .upTo offsetMap.toNat
    else .bytes (recordCount.toNat * h.recordSize.toNat))

/-- What follows the record area: an offset map for rows of any size, else a string block. -/
def stringsOrOffsets (h : Header) (stringTableSize : UInt32) : Request :=
  if h.hasOffsetMap then (.offsetMap, .perId 6) else sized .stringBlock stringTableSize

def simpleRequests (h : Header) : List Request :=
  (if h.signature = .wdb2 && h.maxIndex ≠ 0 then [(.legacyLookup, .perId 6)] else []) ++
  [(.records, .bytes (h.recordCount.toNat * h.recordSize.toNat)),
    sized .stringBlock h.stringTableSize]

def flaggedRequests (h : Header) : List Request :=
  [words .fieldInfo h.fieldCount,
    recordArea h h.recordCount h.stringTableSize,
    stringsOrOffsets h h.stringTableSize] ++
  (if h.flags.hasRelationships then [(.relationshipTable, .perId 4)] else []) ++
  (if h.flags.hasIndexTable then [words .indexTable h.recordCount] else []) ++
  [sized .copyTable h.copyTableSize] ++
  (if h.signature = .wdb6 then [sized .commonData h.commonDataSize] else [])

def storedRequests (h : Header) : List Request :=
  [words .fieldInfo h.fieldCount,
    recordArea h h.recordCount h.storageSizes.offsetMapOffset,
    stringsOrOffsets h h.stringTableSize,
    sized .indexTable h.storageSizes.idListSize,
    sized .copyTable h.copyTableSize,
    sized .fieldStorageInfo h.storageSizes.fieldStorageInfoSize,
    sized .palletData h.storageSizes.palletDataSize,
    sized .commonData h.commonDataSize,
    sized .relationshipTable h.storageSizes.relationshipDataSize]

def sharedRequests (h : Header) : List Request :=
  [words .fieldInfo h.totalFieldCount,
    sized .fieldStorageInfo h.storageSizes.fieldStorageInfoSize,
    sized .palletData h.storageSizes.palletDataSize,
    sized .commonData h.commonDataSize]

def sectionRequests (h : Header) (s : SectionHeader) : List Request :=
  [recordArea h s.recordCount s.offsetMapOffset,
    stringsOrOffsets h s.stringTableSize,
    sized .indexTable s.idListSize,
    sized .copyTable s.copyTableSize,
    sized .relationshipTable s.relationshipDataSize]

/-- A file of one section from one chain of segments. -/
def ofChain (h : Header) (segments : List Segment) : Layout where
  shared := segments.filter fun s => s.kind.isShared
  sections := [⟨0, h.recordCount, segments.filter fun s => !s.kind.isShared⟩]

def planSection (h : Header) (index : Nat) (s : SectionHeader) : Except Error SectionLayout := do
  return ⟨index, s.recordCount, ← place h s.fileOffset.toNat (sectionRequests h s)⟩

def planSections (h : Header) : (index : Nat) → List SectionHeader →
    Except Error (List SectionLayout)
  | _, [] => return []
  | index, s :: rest => do
    let first ← planSection h index s
    let others ← planSections h (index + 1) rest
    return first :: others

/-- The layout of the file that a header announces. -/
def plan (h : Header) : Except Error Layout :=
  match h.signature with
  | .wdbc | .wdb2 => return ofChain h (← place h h.headerEnd (simpleRequests h))
  | .wdb5 | .wdb6 => return ofChain h (← place h h.headerEnd (flaggedRequests h))
  | .wdc1 => return ofChain h (← place h h.headerEnd (storedRequests h))
  | .wdc2 => do
    let shared ← place h h.headerEnd (sharedRequests h)
    let sections ← planSections h 0 h.sections
    return ⟨shared, sections⟩
  | .wdb3 | .wdb4 => throw (.unsupported .layoutOfClientVersion)

end Layout

end ClientTable
