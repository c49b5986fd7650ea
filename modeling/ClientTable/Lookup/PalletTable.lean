import ClientTable.Source

namespace ClientTable

/-- A pallet block. -/
structure PalletTable where
  bytes : Bytes
  deriving DecidableEq, Repr

namespace PalletTable

def size (t : PalletTable) : Nat :=
  t.bytes.length

/-- The position of the word at `index` of the chunk that starts at `chunk`. -/
def position (chunk index : Nat) : Nat :=
  chunk + index * 4

/-- The word at `index` of the chunk that starts at `chunk`. -/
def word (t : PalletTable) (chunk index : Nat) : Except Error UInt32 :=
  if t.size < position chunk index + 4 then
    throw (.invalid (.palletOutside index chunk t.size))
  else return UInt32.ofNat (littleEndian ((t.bytes.drop (position chunk index)).take 4))

def read (source : Source) (segment : Segment) : Reading PalletTable := do
  return ⟨← source.readSegment segment⟩

end PalletTable

end ClientTable
