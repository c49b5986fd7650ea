import ClientTable.Error
import ClientTable.Header

namespace ClientTable

/-- The ways of storing a field that a file can name by a number. -/
inductive Compression where
  | plain
  | immediate
  | common
  | pallet
  | palletArray
  deriving DecidableEq, Repr

def Compression.ofCode (code : UInt32) : Except Error Compression :=
  match code.toNat with
  | 0 => return plain
  | 1 => return immediate
  | 2 => return common
  | 3 => return pallet
  | 4 => return palletArray
  | n => throw (.invalid (.unknownCompression n))

/-- The part of the pallet block or of the common block that belongs to one field. -/
structure Chunk where
  start : Nat
  size : Nat
  deriving DecidableEq, Repr

def Chunk.none : Chunk :=
  ⟨0, 0⟩

def Chunk.stop (c : Chunk) : Nat :=
  c.start + c.size

/-- How the elements of a field are stored. -/
inductive Storage where
  /-- In the record, at their natural width. -/
  | plain (signed : Bool)
  /-- In the record, in as few bits as they need. -/
  | immediate (signed : Bool)
  /-- In the common block under the record's key, unless they have the default value. -/
  | common (default : UInt32) (chunk : Chunk)
  /-- In the pallet block, at an index that stands in the record. -/
  | pallet (chunk : Chunk)
  /-- In the pallet block, all elements of an array at one index that stands in the record. -/
  | palletArray (chunk : Chunk)
  /-- In the relationship table under the record's position. -/
  | relationship
  deriving DecidableEq, Repr

/-- One stored field. -/
structure Descriptor where
  /-- The first bit of the first element in the record. -/
  bitOffset : Nat
  /-- The bits of one element, or of an index into the pallet block. -/
  bitSize : Nat
  /-- The number of elements. -/
  cardinality : Nat
  storage : Storage
  deriving DecidableEq, Repr

namespace Descriptor

/-- Whether the elements are stored in the common block. -/
def isCommon (d : Descriptor) : Bool :=
  match d.storage with
  | .common .. => true
  | _ => false

def isSigned (d : Descriptor) : Bool :=
  match d.storage with
  | .plain signed | .immediate signed => signed
  | _ => false

/-- The value of a record that the common block says nothing about. -/
def defaultValue (d : Descriptor) : UInt32 :=
  match d.storage with
  | .common value _ => value
  | _ => 0

/-- The field's chunk of the pallet block or of the common block. -/
def chunk (d : Descriptor) : Chunk :=
  match d.storage with
  | .common _ chunk | .pallet chunk | .palletArray chunk => chunk
  | _ => .none

/-- The number of bits that the field takes up in the record. -/
def recordBits (d : Descriptor) : Nat :=
  match d.storage with
  | .plain _ | .immediate _ | .pallet _ => d.bitSize * d.cardinality
  | .palletArray _ => d.bitSize
  | .common .. | .relationship => 0

def bitStop (d : Descriptor) : Nat :=
  d.bitOffset + d.recordBits

end Descriptor

end ClientTable
