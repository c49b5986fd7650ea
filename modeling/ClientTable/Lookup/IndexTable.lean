import ClientTable.Lookup.Entries

namespace ClientTable

/-- The keys of the records of a section. -/
structure IndexTable where
  keys : List UInt32
  deriving DecidableEq, Repr

namespace IndexTable

def key? (t : IndexTable) (row : Nat) : Option UInt32 :=
  t.keys[row]?

/-- The index table of a section, which has to have one key for every record. -/
def read (source : Source) (segment : Segment) (recordCount : UInt32) : Reading IndexTable := do
  let count ← Block.indexTable.entryCount segment.length 4
  if count ≠ recordCount.toNat then
    throw (.countMismatch .indexKeys recordCount.toNat count)
  let block ← source.readSegment segment
  return ⟨← Parse.decode (Parse.many Parse.u32 count) block⟩

end IndexTable

end ClientTable
