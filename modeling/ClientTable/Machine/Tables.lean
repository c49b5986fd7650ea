import ClientTable.Machine.Drive
import ClientTable.Lookup.CommonTable
import ClientTable.Lookup.CopyTable
import ClientTable.Lookup.IndexTable
import ClientTable.Lookup.OffsetMap
import ClientTable.Lookup.PalletTable
import ClientTable.Lookup.RelationshipTable
import ClientTable.Lookup.StringTable

namespace ClientTable.Machine

def entryCount (block : Block) (length entrySize : Nat) : Checked Nat := do
  let left ← Checked.rem length entrySize
  if left ≠ 0 then
    throw (.sizeMismatch block (← Checked.sub length left) length)
  else Checked.div length entrySize

def terminated? (bytes : Bytes) : Checked (Option Bytes) :=
  match bytes.findIdx? (· = 0) with
  | some stop => return some (← Checked.slice bytes 0 stop)
  | none => return none

def textAt (bytes : Bytes) (offset : UInt32) : Checked String :=
  if bytes.length < offset.toNat then
    throw (.invalid (.stringOutside offset.toNat bytes.length))
  else do
    let tail ← Checked.slice bytes offset.toNat bytes.length
    match ← terminated? tail with
    | some text => return Utf8.decode text
    | none => throw (.invalid (.unterminatedString offset.toNat))

def resolve (offset : UInt32) : Guarded StringTable String := do
  let t ← get
  match t.found? offset with
  | some text => return text
  | none =>
    let text ← textAt t.bytes offset
    set (t.keep offset text)
    return text

def readStringTable (segment : Segment) (intern : Bool) : Guarded Drive StringTable := do
  return .ofBytes (← Drive.readSegment segment) intern

def isInside (records : Segment) (l : RowLocation) : Checked Bool := do
  let stop ← Checked.add positionLimit l.offset.toNat l.length.toNat
  let limit ← Checked.add positionLimit records.start records.length
  return records.start ≤ l.offset.toNat && stop ≤ limit

def checkInside (records : Segment) : List RowLocation → Checked Unit
  | [] => return
  | l :: locations => do
    if ← isInside records l then checkInside records locations else throw (l.outside records)

def select (records : Segment) (recordCount : UInt32) (slots : List RowLocation) :
    Checked (List RowLocation) := do
  let used := slots.filter RowLocation.isUsed
  checkInside records used
  if used.length = recordCount.toNat then return used
  else throw (.countMismatch .offsetMapEntries recordCount.toNat used.length)

def readLocations (segment records : Segment) (recordCount : UInt32) :
    Guarded Drive (List RowLocation) := do
  let count ← entryCount .offsetMap segment.length RowLocation.entrySize
  let block ← Drive.readSegment segment
  let slots ← Parse.decode (Parse.many RowLocation.parse count) block
  select records recordCount slots

def readIndexTable (segment : Segment) (recordCount : UInt32) : Guarded Drive IndexTable := do
  let count ← entryCount .indexTable segment.length 4
  if count ≠ recordCount.toNat then
    throw (.countMismatch .indexKeys recordCount.toNat count)
  let block ← Drive.readSegment segment
  return ⟨← Parse.decode (Parse.many Parse.u32 count) block⟩

def readCopyTable (segment : Segment) : Guarded Drive CopyTable := do
  let count ← entryCount .copyTable segment.length CopyTable.entrySize
  let block ← Drive.readSegment segment
  return ⟨← Parse.decode (Parse.many Copy.parse count) block⟩

/-- The first `count` pieces of `size` bytes. -/
def pieces (size : Nat) : (count : Nat) → Bytes → List Bytes
  | 0, _ => []
  | count + 1, bytes => bytes.take size :: pieces size count (bytes.drop size)

def copyWord (bytes : Bytes) : Except Trap UInt32 :=
  if bytes.length = 4 then return UInt32.ofNat (littleEndian bytes) else throw .outOfRange

def keyedWord (piece : Bytes) : Except Trap KeyedWord := do
  let word ← copyWord (← Checked.slice piece 4 piece.length)
  let key ← [0, 1, 2, 3].mapM (Checked.item piece)
  return ⟨UInt32.ofNat (littleEndian key), word⟩

def readSlots (block : Bytes) : Except Trap RelationshipTable := do
  return ⟨RelationshipTable.numbered 0 (← (pieces 4 (block.length / 4) block).mapM copyWord)⟩

def parseListed (length : Nat) : Guarded Input RelationshipTable := do
  let count ← Parse.u32
  let _ ← Parse.u32
  let _ ← Parse.u32
  let size ← Checked.mul positionLimit count.toNat KeyedWord.entrySize
  let needed ← Checked.add positionLimit 12 size
  if length < needed then throw (.sizeMismatch .relationshipTable needed length)
  return ⟨← Parse.many KeyedWord.parse count.toNat⟩

def decode {α : Type} (item : Guarded Input α) (bytes : Bytes) : Checked α :=
  ExceptT.mk ((item.on (.ofBytes bytes)).map Prod.fst)

def readRelationshipTable (segment : Segment) (signature : Signature) :
    Guarded Drive RelationshipTable := do
  let block ← Drive.readSegment segment
  match signature with
  | .wdb5 | .wdb6 => return ← readSlots block
  | _ => decode (parseListed segment.length) block

def readPalletTable (segment : Segment) : Guarded Drive PalletTable := do
  return ⟨← Drive.readSegment segment⟩

/-- The word at `index` of the chunk that starts at `chunk`. Where its end is beyond 64 bits, it is
beyond the block. -/
def palletWord (t : PalletTable) (chunk index : Nat) : Checked UInt32 := do
  let first ← Checked.add positionLimit chunk 4
  let stop := index * 4 + first
  if t.size < stop then throw (.invalid (.palletOutside index chunk t.size))
  else do
    let start ← Checked.sub stop 4
    let bytes ← (Checked.slice t.bytes start stop : Except Trap Bytes)
    let word ← copyWord bytes
    return word

def columnOfChunk (block : Bytes) (column : Nat) (chunk : Chunk) : Checked CommonColumn := do
  let stop ← Checked.add positionLimit chunk.start chunk.size
  if block.length < stop then
    throw (.invalid (.commonChunkOutside column chunk.start stop block.length))
  let count ← entryCount .commonChunk chunk.size KeyedWord.entrySize
  let bytes ← (Checked.slice block chunk.start stop : Except Trap Bytes)
  let values ← ((pieces KeyedWord.entrySize count bytes).mapM keyedWord :
    Except Trap (List KeyedWord))
  return ⟨column, values⟩

def columnsOfChunks (block : Bytes) : (column : Nat) → List Descriptor →
    Checked (List CommonColumn)
  | _, [] => return []
  | column, d :: descriptors =>
    if d.isCommon then do
      let first ← columnOfChunk block column d.chunk
      let others ← columnsOfChunks block (column + 1) descriptors
      return first :: others
    else columnsOfChunks block (column + 1) descriptors

def readCommonTable (segment : Segment) (h : Header) (descriptors : List Descriptor) :
    Guarded Drive CommonTable := do
  let block ← Drive.readSegment segment
  if h.signature = .wdb6 then
    let first := h.fieldCount.toNat
    return ⟨← Parse.decode (CommonTable.parseColumns first (h.totalFieldCount.toNat - first)) block⟩
  else return ⟨← columnsOfChunks block 0 descriptors⟩

end ClientTable.Machine
