import ClientTable.Machine.Rows
import ClientTable.Section

namespace ClientTable.Machine

def nextRow? : RowCursor → Except Trap (Option (Row × RowCursor))
  | .fixed start stride count next =>
    if next < count then do
      let distance ← Checked.mul positionLimit next stride
      let offset ← Checked.add positionLimit start distance
      let following ← Checked.add wordLimit next 1
      return some (⟨next, offset, stride⟩, .fixed start stride count following)
    else return none
  | .located [] _ => return none
  | .located (l :: locations) next => do
    let following ← Checked.add wordLimit next 1
    return some (⟨next, l.offset.toNat, l.length.toNat⟩, .located locations following)

def readPallet (layout : Layout) : Guarded Drive (Option PalletTable) := do
  match layout.findShared? .palletData with
  | some segment => return some (← readPalletTable segment)
  | none => return none

def readCommon (m : Metadata) (h : Header) : Guarded Drive (Option CommonTable) := do
  match m.layout.findShared? .commonData with
  | some segment => return some (← readCommonTable segment h m.descriptors)
  | none => return none

def readShared (m : Metadata) : Guarded Drive SharedTables := do
  match m.header with
  | none => return ⟨none, none⟩
  | some h => return ⟨← readPallet m.layout, ← readCommon m h⟩

def readStrings (layout : SectionLayout) (records : Segment) (intern : Bool) :
    Guarded Drive (StringTable × Nat) := do
  match layout.find? .stringBlock with
  | some segment => return (← readStringTable segment intern, segment.start)
  | none => return (.ofBytes [] intern, ← Checked.add positionLimit records.start records.length)

def readRows (h : Header) (layout : SectionLayout) (records : Segment) :
    Guarded Drive RowCursor := do
  if h.hasOffsetMap then
    match layout.find? .offsetMap with
    | some segment => return .located (← readLocations segment records layout.recordCount) 0
    | none => throw (.invalid (.missingOffsetMap layout.index))
  else
    return .fixed records.start h.recordSize.toNat layout.recordCount.toNat 0

def readKeys (layout : SectionLayout) : Guarded Drive (Option IndexTable) := do
  match layout.find? .indexTable with
  | some segment => return some (← readIndexTable segment layout.recordCount)
  | none => return none

def readCopies (layout : SectionLayout) : Guarded Drive CopyTable := do
  match layout.find? .copyTable with
  | some segment => readCopyTable segment
  | none => return .empty

def readRelationships (h : Header) (layout : SectionLayout) :
    Guarded Drive (Option RelationshipTable) := do
  match layout.find? .relationshipTable with
  | some segment => return some (← readRelationshipTable segment h.signature)
  | none => return none

def readSection (h : Header) (layout : SectionLayout) (intern : Bool) : Guarded Drive Section := do
  match layout.segments.find? fun s => s.kind = .records with
  | none => throw (.invalid (.missingRecords layout.index))
  | some records =>
    let (strings, stringBlockStart) ← readStrings layout records intern
    let rows ← readRows h layout records
    let keys ← readKeys layout
    let copies ← readCopies layout
    let relationships ← readRelationships h layout
    return {
      index := layout.index
      rows
      isVariable := h.hasOffsetMap
      hasRelativeStrings := h.signature.hasRelativeStrings
      strings
      stringBlockStart
      keys
      copies
      relationships
      pending := none }

def rowValues (mapping : Mapping) (c : RowContext) (key : Option UInt32) (length : Nat) :
    Guarded RowState (List Value) := do
  let decoded ← values mapping c key
  if c.isVariable then
    -- The size in bits is only logged.
    let _ ← Checked.mul positionLimit length 8
  return decoded

def decodeRow (s : Section) (m : Metadata) (shared : SharedTables) (mapping : Mapping) (row : Row)
    (data : Bytes) : Except Trap (Except Error Record × StringTable) :=
  match s.externalKey row.index with
  | .error e => return (.error e, s.strings)
  | .ok key => do
    let (result, state) ←
      (rowValues mapping (s.context m shared row) key row.length).on (.start data s.strings)
    return (result.map fun values => ⟨m.schema, values, mapping.keyField⟩, state.strings)

def readRow (m : Metadata) (shared : SharedTables) (s : Section) (row : Row) :
    Stepwise Drive (Except Error Record × StringTable) := do
  match m.mappings[s.index]? with
  | none => return (.error (.invalid (.missingMapping s.index)), s.strings)
  | some mapping =>
    match ← (Drive.fillBuffer row.offset row.length).run with
    | .error e => return (.error e, s.strings)
    | .ok _ => decodeRow s m shared mapping row (← get).buffer

def nextRow (m : Metadata) (shared : SharedTables) (s : Section) :
    Stepwise Drive (Option (Except Error Record) × Section) := do
  match ← nextRow? s.rows with
  | none => return (none, { s with pending := none })
  | some (row, rows) =>
    let (result, strings) ← readRow m shared s row
    let pending := match result with
      | .ok record => some (record, s.duplicateKeys record)
      | .error _ => none
    return (some result, { s with rows, strings, pending })

def nextRecord (m : Metadata) (shared : SharedTables) (s : Section) :
    Stepwise Drive (Option (Except Error Record) × Section) := do
  match s.pending with
  | some (record, key :: keys) =>
    -- Copies are counted as they are given out.
    let given := (s.duplicateKeys record).length - (keys.length + 1)
    let _ ← Checked.add positionLimit given 1
    return (some (record.withKey key), { s with pending := some (record, keys) })
  | _ => nextRow m shared s

end ClientTable.Machine
