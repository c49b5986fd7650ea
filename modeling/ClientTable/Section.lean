import ClientTable.Lookup.CopyTable
import ClientTable.Lookup.IndexTable
import ClientTable.Lookup.OffsetMap
import ClientTable.Metadata
import ClientTable.Record
import ClientTable.Row.Values

namespace ClientTable

/-- Where a row stands. -/
structure Row where
  /-- The position of the row in its section. -/
  index : Nat
  offset : Nat
  length : Nat
  deriving DecidableEq, Repr

/-- The rows of a section that have not been read. -/
inductive RowCursor where
  /-- Rows of one size, one after the other. -/
  | fixed (start stride count next : Nat)
  /-- Rows that an offset map locates. -/
  | located (locations : List RowLocation) (next : Nat)
  deriving DecidableEq, Repr

def RowCursor.next? : RowCursor → Option (Row × RowCursor)
  | fixed start stride count next =>
    if next < count then
      some (⟨next, start + next * stride, stride⟩, fixed start stride count (next + 1))
    else none
  | located [] _ => none
  | located (l :: locations) next =>
    some (⟨next, l.offset.toNat, l.length.toNat⟩, located locations (next + 1))

/-- The tables that serve every section. -/
structure SharedTables where
  pallet : Option PalletTable
  common : Option CommonTable
  deriving DecidableEq, Repr

namespace SharedTables

def readPallet (source : Source) (layout : Layout) : Reading (Option PalletTable) := do
  match layout.findShared? .palletData with
  | some segment => return some (← PalletTable.read source segment)
  | none => return none

def readCommon (source : Source) (m : Metadata) (h : Header) : Reading (Option CommonTable) := do
  match m.layout.findShared? .commonData with
  | some segment => return some (← CommonTable.read source segment h m.descriptors)
  | none => return none

def read (source : Source) (m : Metadata) : Reading SharedTables := do
  match m.header with
  | none => return ⟨none, none⟩
  | some h => return ⟨← readPallet source m.layout, ← readCommon source m h⟩

end SharedTables

/-- A section whose tables have been read, and how far its records have been given out. -/
structure Section where
  index : Nat
  rows : RowCursor
  isVariable : Bool
  hasRelativeStrings : Bool
  strings : StringTable
  stringBlockStart : Nat
  keys : Option IndexTable
  copies : CopyTable
  relationships : Option RelationshipTable
  /-- The record given out last, and the keys of its copies still to be given out. -/
  pending : Option (Record × List UInt32)
  deriving DecidableEq, Repr

namespace Section

/-- The strings of a section and the position of its string block. Without one, the block would
follow the records. -/
def readStrings (source : Source) (layout : SectionLayout) (records : Segment) (intern : Bool) :
    Reading (StringTable × Nat) := do
  match layout.find? .stringBlock with
  | some segment => return (← StringTable.read source segment intern, segment.start)
  | none => return (.ofBytes [] intern, records.stop)

def readRows (source : Source) (h : Header) (layout : SectionLayout) (records : Segment) :
    Reading RowCursor := do
  if h.hasOffsetMap then
    match layout.find? .offsetMap with
    | some segment =>
      return .located (← RowLocation.readAll source segment records layout.recordCount) 0
    | none => throw (.invalid (.missingOffsetMap layout.index))
  else
    return .fixed records.start h.recordSize.toNat layout.recordCount.toNat 0

def readKeys (source : Source) (layout : SectionLayout) : Reading (Option IndexTable) := do
  match layout.find? .indexTable with
  | some segment => return some (← IndexTable.read source segment layout.recordCount)
  | none => return none

def readCopies (source : Source) (layout : SectionLayout) : Reading CopyTable := do
  match layout.find? .copyTable with
  | some segment => CopyTable.read source segment
  | none => return .empty

def readRelationships (source : Source) (h : Header) (layout : SectionLayout) :
    Reading (Option RelationshipTable) := do
  match layout.find? .relationshipTable with
  | some segment => return some (← RelationshipTable.read source segment h.signature)
  | none => return none

def read (source : Source) (h : Header) (layout : SectionLayout) (intern : Bool) :
    Reading Section := do
  match layout.segments.find? fun s => s.kind = .records with
  | none => throw (.invalid (.missingRecords layout.index))
  | some records =>
    let (strings, stringBlockStart) ← readStrings source layout records intern
    let rows ← readRows source h layout records
    let keys ← readKeys source layout
    let copies ← readCopies source layout
    let relationships ← readRelationships source h layout
    return {
      index := layout.index
      rows
      isVariable := h.hasOffsetMap
      hasRelativeStrings := h.signature.hasRelativeStrings
      strings
      stringBlockStart
      keys
      copies
      relationships
      pending := none }

def externalKey (s : Section) (row : Nat) : Except Error (Option UInt32) :=
  match s.keys with
  | none => return none
  | some table =>
    match table.key? row with
    | some key => return some key
    | none => throw (.invalid (.missingKey row))

def context (s : Section) (m : Metadata) (shared : SharedTables) (row : Row) : RowContext where
  descriptors := m.descriptors
  index := row.index
  offset := row.offset
  isVariable := s.isVariable
  hasRelativeStrings := s.hasRelativeStrings
  stringBlockStart := s.stringBlockStart
  relationships := s.relationships
  pallet := shared.pallet
  common := shared.common

/-- The record in the bytes of a row, and the strings of the section as they are then. -/
def decodeRow (s : Section) (m : Metadata) (shared : SharedTables) (mapping : Mapping) (row : Row)
    (data : Bytes) : Except Error Record × StringTable :=
  match s.externalKey row.index with
  | .error e => (.error e, s.strings)
  | .ok key =>
    let (result, state) :=
      (mapping.values (s.context m shared row) key).on (.start data s.strings)
    (result.map fun values => ⟨m.schema, values, mapping.keyField⟩, state.strings)

def readRow (source : Source) (m : Metadata) (shared : SharedTables) (s : Section) (row : Row) :
    StateM Nat (Except Error Record × StringTable) := do
  match m.mappings[s.index]? with
  | none => return (.error (.invalid (.missingMapping s.index)), s.strings)
  | some mapping =>
    match ← (source.readBlock row.offset row.length).run with
    | .error e => return (.error e, s.strings)
    | .ok data => return s.decodeRow m shared mapping row data

/-- The keys of the copies of a record. -/
def duplicateKeys (s : Section) (record : Record) : List UInt32 :=
  match record.key? with
  | some key => s.copies.duplicatesOf key
  | none => []

/-- Reads the next row, whose copies are then pending. -/
def nextRow (source : Source) (m : Metadata) (shared : SharedTables) (s : Section) :
    StateM Nat (Option (Except Error Record) × Section) := do
  match s.rows.next? with
  | none => return (none, { s with pending := none })
  | some (row, rows) =>
    let (result, strings) ← s.readRow source m shared row
    let pending := match result with
      | .ok record => some (record, s.duplicateKeys record)
      | .error _ => none
    return (some result, { s with rows, strings, pending })

/-- The next record of a section: a pending copy, else the record of the next row. -/
def next (source : Source) (m : Metadata) (shared : SharedTables) (s : Section) :
    StateM Nat (Option (Except Error Record) × Section) := do
  match s.pending with
  | some (record, key :: keys) =>
    return (some (record.withKey key), { s with pending := some (record, keys) })
  | _ => s.nextRow source m shared

end Section

end ClientTable
