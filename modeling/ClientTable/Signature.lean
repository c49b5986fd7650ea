import ClientTable.Bytes

namespace ClientTable

/-- A member of the file family, named by the first four bytes of its files. -/
inductive Signature where
  | wdbc
  | wdb2
  | wdb3
  | wdb4
  | wdb5
  | wdb6
  | wdc1
  | wdc2
  deriving DecidableEq, Repr

namespace Signature

/-- All signatures, oldest first. -/
def all : List Signature :=
  [wdbc, wdb2, wdb3, wdb4, wdb5, wdb6, wdc1, wdc2]

def name : Signature → String
  | wdbc => "WDBC"
  | wdb2 => "WDB2"
  | wdb3 => "WDB3"
  | wdb4 => "WDB4"
  | wdb5 => "WDB5"
  | wdb6 => "WDB6"
  | wdc1 => "WDC1"
  | wdc2 => "WDC2"

def magic : Signature → Bytes
  | wdbc => [0x57, 0x44, 0x42, 0x43]
  | wdb2 => [0x57, 0x44, 0x42, 0x32]
  | wdb3 => [0x57, 0x44, 0x42, 0x33]
  | wdb4 => [0x57, 0x44, 0x42, 0x34]
  | wdb5 => [0x57, 0x44, 0x42, 0x35]
  | wdb6 => [0x57, 0x44, 0x42, 0x36]
  | wdc1 => [0x57, 0x44, 0x43, 0x31]
  | wdc2 => [0x57, 0x44, 0x43, 0x32]

def ofMagic? (bs : Bytes) : Option Signature :=
  all.find? fun s => s.magic == bs

/-- Files of these versions cannot be decoded without metadata from the client. -/
def needsClientMetadata (s : Signature) : Bool :=
  s = wdb3 || s = wdb4

/-- Whether a file describes its fields itself; otherwise they follow from the caller's schema. -/
def hasFieldInfo (s : Signature) : Bool :=
  !(s = wdbc || s = wdb2)

/-- Whether a file says how each field is compressed. -/
def hasStorageInfo (s : Signature) : Bool :=
  s = wdc1 || s = wdc2

/-- Whether a string cell holds the distance from itself to its text. -/
def hasRelativeStrings (s : Signature) : Bool :=
  s = wdc2

@[simp]
theorem length_magic (s : Signature) : s.magic.length = 4 := by
  cases s <;> rfl

@[simp]
theorem ofMagic?_magic (s : Signature) : ofMagic? s.magic = some s := by
  cases s <;> rfl

end Signature

end ClientTable
