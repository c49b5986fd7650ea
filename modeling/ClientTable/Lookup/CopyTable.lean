import ClientTable.Lookup.Entries

namespace ClientTable

/-- A record to be added: the key it gets and the key of the record it is like. -/
structure Copy where
  newKey : UInt32
  sourceKey : UInt32
  deriving DecidableEq, Repr

def Copy.parse : Parse Copy := do
  return { newKey := ← Parse.u32, sourceKey := ← Parse.u32 }

/-- The copies of a section, in file order. -/
structure CopyTable where
  copies : List Copy
  deriving DecidableEq, Repr

namespace CopyTable

def empty : CopyTable :=
  ⟨[]⟩

def entrySize : Nat :=
  8

def size (t : CopyTable) : Nat :=
  t.copies.length

/-- The keys of the copies of the record with the given key, in file order. -/
def duplicatesOf (t : CopyTable) (key : UInt32) : List UInt32 :=
  (t.copies.filter fun c => c.sourceKey = key).map Copy.newKey

def read (source : Source) (segment : Segment) : Reading CopyTable := do
  let count ← Block.copyTable.entryCount segment.length entrySize
  let block ← source.readSegment segment
  return ⟨← Parse.decode (Parse.many Copy.parse count) block⟩

end CopyTable

end ClientTable
