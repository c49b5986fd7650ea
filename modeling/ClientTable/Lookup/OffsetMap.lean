import ClientTable.Lookup.Entries

namespace ClientTable

/-- Where a record of variable length stands. -/
structure RowLocation where
  offset : UInt32
  length : UInt16
  deriving DecidableEq, Repr

namespace RowLocation

def entrySize : Nat :=
  6

def parse : Parse RowLocation := do
  return { offset := ← Parse.u32, length := ← Parse.u16 }

/-- A slot that locates a record. -/
def isUsed (l : RowLocation) : Bool :=
  l.offset ≠ 0 && l.length ≠ 0

def stop (l : RowLocation) : Nat :=
  l.offset.toNat + l.length.toNat

/-- Whether the record lies in the record area. -/
def isInside (records : Segment) (l : RowLocation) : Bool :=
  records.start ≤ l.offset.toNat && l.stop ≤ records.stop

/-- The error for a record that does not lie in the record area. -/
def outside (records : Segment) (l : RowLocation) : Error :=
  .invalid (.rowOutside l.offset.toNat l.length.toNat records.start records.stop)

/-- The used slots, which have to lie in the record area and to be as many as there are records. -/
def select (records : Segment) (recordCount : UInt32) (slots : List RowLocation) :
    Except Error (List RowLocation) :=
  let used := slots.filter isUsed
  match used.find? fun l => !l.isInside records with
  | some stray => throw (stray.outside records)
  | none =>
    if used.length = recordCount.toNat then return used
    else throw (.countMismatch .offsetMapEntries recordCount.toNat used.length)

/-- The records that an offset map locates, in slot order. -/
def readAll (source : Source) (segment records : Segment) (recordCount : UInt32) :
    Reading (List RowLocation) := do
  let count ← Block.offsetMap.entryCount segment.length entrySize
  let block ← source.readSegment segment
  let slots ← Parse.decode (Parse.many parse count) block
  select records recordCount slots

end RowLocation

end ClientTable
