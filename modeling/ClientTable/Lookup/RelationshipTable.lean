import ClientTable.Lookup.Entries

namespace ClientTable

/-- Foreign keys under record positions; of several under one position the last counts. -/
structure RelationshipTable where
  entries : List KeyedWord
  deriving DecidableEq, Repr

namespace RelationshipTable

def size (t : RelationshipTable) : Nat :=
  (t.entries.map KeyedWord.key).eraseDups.length

def foreignKey? (t : RelationshipTable) (row : UInt32) : Option UInt32 :=
  KeyedWord.lookup? t.entries row

/-- Foreign keys under their own positions, from `row` on. -/
def numbered : (row : Nat) → List UInt32 → List KeyedWord
  | _, [] => []
  | row, key :: keys => ⟨UInt32.ofNat row, key⟩ :: numbered (row + 1) keys

/-- A block with one foreign key after the other; bytes after the last are ignored. -/
def parseSlots (length : Nat) : Parse RelationshipTable := do
  return ⟨numbered 0 (← Parse.many Parse.u32 (length / 4))⟩

/-- A block that says how many foreign keys it has and between which ids, and then lists each behind
the position of its record. -/
def parseListed (length : Nat) : Parse RelationshipTable := do
  let count ← Parse.u32
  let _ ← Parse.u32
  let _ ← Parse.u32
  let needed := 12 + count.toNat * KeyedWord.entrySize
  if length < needed then throw (.sizeMismatch .relationshipTable needed length)
  return ⟨← Parse.many KeyedWord.parse count.toNat⟩

def read (source : Source) (segment : Segment) (signature : Signature) :
    Reading RelationshipTable := do
  let block ← source.readSegment segment
  match signature with
  | .wdb5 | .wdb6 => Parse.decode (parseSlots segment.length) block
  | _ => Parse.decode (parseListed segment.length) block

end RelationshipTable

end ClientTable
