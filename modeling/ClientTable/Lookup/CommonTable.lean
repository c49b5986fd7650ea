import ClientTable.Descriptor
import ClientTable.Lookup.Entries

namespace ClientTable

/-- The values of one column that differ from its default. -/
structure CommonColumn where
  column : Nat
  values : List KeyedWord
  deriving DecidableEq, Repr

/-- The columns of a common block; of several values for one record the last counts. -/
structure CommonTable where
  columns : List CommonColumn
  deriving DecidableEq, Repr

namespace CommonTable

def isEmpty (t : CommonTable) : Bool :=
  t.columns.isEmpty

/-- The value of a column for a record, if it has one of its own. -/
def value? (t : CommonTable) (column : Nat) (key : UInt32) : Option UInt32 :=
  t.columns.reverse.findSome? fun c =>
    if c.column = column then KeyedWord.lookup? c.values key else none

/-- A column behind its number of values and the type of these. -/
def parseColumn (column : Nat) : Parse CommonColumn := do
  let count ← Parse.u32
  let type ← Parse.u8
  if 4 < type then throw (.invalid (.commonValueType type.toNat column))
  return ⟨column, ← Parse.many KeyedWord.parse count.toNat⟩

def parseColumns : (column count : Nat) → Parse (List CommonColumn)
  | _, 0 => return []
  | column, count + 1 => do
    let first ← parseColumn column
    let others ← parseColumns (column + 1) count
    return first :: others

/-- The column of the descriptor at a position, from its chunk of the block. -/
def columnOfChunk (block : Bytes) (column : Nat) (chunk : Chunk) : Except Error CommonColumn := do
  if block.length < chunk.stop then
    throw (.invalid (.commonChunkOutside column chunk.start chunk.stop block.length))
  let count ← Block.commonChunk.entryCount chunk.size KeyedWord.entrySize
  let bytes := (block.drop chunk.start).take chunk.size
  return ⟨column, ← Parse.decode (Parse.many KeyedWord.parse count) bytes⟩

def columnsOfChunks (block : Bytes) : (column : Nat) → List Descriptor →
    Except Error (List CommonColumn)
  | _, [] => return []
  | column, d :: descriptors =>
    if d.isCommon then do
      let first ← columnOfChunk block column d.chunk
      let others ← columnsOfChunks block (column + 1) descriptors
      return first :: others
    else columnsOfChunks block (column + 1) descriptors

/-- The common block of a file. WDB6 files have a run for each column that their records do not
hold; others have a chunk for each column that is compressed this way. -/
def read (source : Source) (segment : Segment) (h : Header) (descriptors : List Descriptor) :
    Reading CommonTable := do
  let block ← source.readSegment segment
  if h.signature = .wdb6 then
    let first := h.fieldCount.toNat
    return ⟨← Parse.decode (parseColumns first (h.totalFieldCount.toNat - first)) block⟩
  else return ⟨← columnsOfChunks block 0 descriptors⟩

end CommonTable

end ClientTable
