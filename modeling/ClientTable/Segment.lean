namespace ClientTable

/-- The role of a byte range. -/
inductive SegmentKind where
  | legacyLookup
  | fieldInfo
  | records
  | stringBlock
  | offsetMap
  | relationshipTable
  | indexTable
  | copyTable
  | fieldStorageInfo
  | palletData
  | commonData
  deriving DecidableEq, Repr

namespace SegmentKind

def all : List SegmentKind :=
  [legacyLookup, fieldInfo, records, stringBlock, offsetMap, relationshipTable, indexTable,
    copyTable, fieldStorageInfo, palletData, commonData]

def name : SegmentKind → String
  | legacyLookup => "LegacyLookup"
  | fieldInfo => "FieldInfo"
  | records => "Records"
  | stringBlock => "StringBlock"
  | offsetMap => "OffsetMap"
  | relationshipTable => "RelationshipTable"
  | indexTable => "IndexTable"
  | copyTable => "CopyTable"
  | fieldStorageInfo => "FieldStorageInfo"
  | palletData => "PalletData"
  | commonData => "CommonData"

def isShared : SegmentKind → Bool
  | fieldInfo | fieldStorageInfo | palletData | commonData => true
  | _ => false

end SegmentKind

/-- A byte range with a role, from `start` on, relative to the first byte of the file. -/
structure Segment where
  kind : SegmentKind
  start : Nat
  length : Nat
  deriving DecidableEq, Repr

namespace Segment

def stop (s : Segment) : Nat :=
  s.start + s.length

/-- A segment of no bytes is planned but not there. -/
def isPresent (s : Segment) : Bool :=
  0 < s.length

def find? (kind : SegmentKind) (segments : List Segment) : Option Segment :=
  segments.find? fun s => s.kind = kind && s.isPresent

end Segment

/-- The segments of one section, which in most formats is the whole file. -/
structure SectionLayout where
  index : Nat
  recordCount : UInt32
  segments : List Segment
  deriving DecidableEq, Repr

def SectionLayout.find? (s : SectionLayout) (kind : SegmentKind) : Option Segment :=
  Segment.find? kind s.segments

/-- Where everything in a file lies. -/
structure Layout where
  shared : List Segment
  sections : List SectionLayout
  deriving DecidableEq, Repr

def Layout.findShared? (l : Layout) (kind : SegmentKind) : Option Segment :=
  Segment.find? kind l.shared

def Layout.empty : Layout :=
  ⟨[], []⟩

end ClientTable
