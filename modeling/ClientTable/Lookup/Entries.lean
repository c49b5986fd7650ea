import ClientTable.Source

namespace ClientTable

/-- The number of entries in a block of `length` bytes, which has to hold whole ones only. -/
def Block.entryCount (block : Block) (length entrySize : Nat) : Except Error Nat :=
  if length % entrySize ≠ 0 then
    throw (.sizeMismatch block (length - length % entrySize) length)
  else return length / entrySize

/-- A word under a key. -/
structure KeyedWord where
  key : UInt32
  word : UInt32
  deriving DecidableEq, Repr

namespace KeyedWord

def entrySize : Nat :=
  8

def parse : Parse KeyedWord := do
  return { key := ← Parse.u32, word := ← Parse.u32 }

/-- The word under a key; of several the last. -/
def lookup? (entries : List KeyedWord) (key : UInt32) : Option UInt32 :=
  (entries.reverse.find? fun e => e.key = key).map word

end KeyedWord

end ClientTable
