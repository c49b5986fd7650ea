import ClientTable.Descriptor.FieldInfo

namespace ClientTable

/-- What a file says about how one field is stored. -/
structure StorageInfo where
  bitOffset : UInt16
  bitSize : UInt16
  chunkSize : UInt32
  code : UInt32
  /-- Three words whose meaning depends on the way of storing. -/
  first : UInt32
  second : UInt32
  third : UInt32
  deriving DecidableEq, Repr

/-- Where the next chunk of the pallet block and the next chunk of the common block start. -/
structure ChunkOffsets where
  pallet : Nat
  common : Nat
  deriving DecidableEq, Repr

namespace StorageInfo

def entrySize : Nat :=
  24

def parse : Parse StorageInfo := do
  return {
    bitOffset := ← Parse.u16
    bitSize := ← Parse.u16
    chunkSize := ← Parse.u32
    code := ← Parse.u32
    first := ← Parse.u32
    second := ← Parse.u32
    third := ← Parse.u32 }

/-- The chunk of the field at `index`, which has to end below 4 GiB. -/
def chunkAt (index start : Nat) (info : StorageInfo) : Except Error Chunk :=
  if wordLimit ≤ start + info.chunkSize.toNat then throw (.invalid (.chunkPastLimit index))
  else return ⟨start, info.chunkSize.toNat⟩

/-- The width of a compressed element or index: the declared one, else the whole field. -/
def packedBits (info : StorageInfo) : Nat :=
  if info.second = 0 then info.bitSize.toNat else info.second.toNat

/-- The width of a plain element: that of the field info if there is one, else the whole field. -/
def plainBits (index : Nat) (field? : Option FieldInfo) (info : StorageInfo) :
    Except Error Nat := do
  let bits ← match field? with
    | some field => field.bitSize
    | none => pure info.bitSize.toNat
  if bits = 0 then throw (.invalid (.zeroWidth index)) else return bits

/-- The descriptor of the entry at `index`, and where the next chunks start. -/
def descriptor (index : Nat) (field? : Option FieldInfo) (offsets : ChunkOffsets)
    (info : StorageInfo) : Except Error (Descriptor × ChunkOffsets) := do
  let bitOffset := info.bitOffset.toNat
  match ← Compression.ofCode info.code with
  | .plain =>
    let bits ← info.plainBits index field?
    return (⟨bitOffset, bits, max (info.bitSize.toNat / bits) 1, .plain false⟩, offsets)
  | .immediate =>
    return (⟨bitOffset, info.packedBits, 1, .immediate (info.third &&& 1 ≠ 0)⟩, offsets)
  | .common =>
    let chunk ← info.chunkAt index offsets.common
    return (⟨bitOffset, 0, 1, .common info.first chunk⟩, { offsets with common := chunk.stop })
  | .pallet =>
    let chunk ← info.chunkAt index offsets.pallet
    return (⟨bitOffset, info.packedBits, 1, .pallet chunk⟩, { offsets with pallet := chunk.stop })
  | .palletArray =>
    let chunk ← info.chunkAt index offsets.pallet
    return (⟨bitOffset, info.packedBits, max info.third.toNat 1, .palletArray chunk⟩,
      { offsets with pallet := chunk.stop })

def descriptors (fields : List FieldInfo) : (index : Nat) → ChunkOffsets → List StorageInfo →
    Except Error (List Descriptor)
  | _, _, [] => return []
  | index, offsets, info :: rest => do
    let (first, offsets) ← info.descriptor index fields[index]? offsets
    let others ← descriptors fields (index + 1) offsets rest
    return first :: others

end StorageInfo

end ClientTable
