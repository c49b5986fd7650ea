import ClientTable.Bits
import ClientTable.Descriptor
import ClientTable.Layout
import ClientTable.Lookup.CommonTable
import ClientTable.Lookup.PalletTable
import ClientTable.Lookup.RelationshipTable
import ClientTable.Lookup.StringTable
import ClientTable.Value

/-!
Reading the stored elements of one row. In a row of fixed size every element has its own place. In a
row of variable size the elements that are stored in it follow one another, and strings are spelled
out.
-/

namespace ClientTable

/-- What is known about a row and its surroundings before it is decoded. -/
structure RowContext where
  descriptors : List Descriptor
  /-- The position of the row in its section. -/
  index : Nat
  /-- The position of the row's first byte in the file. -/
  offset : Nat
  isVariable : Bool
  /-- Whether a string cell holds the distance from itself to its text. -/
  hasRelativeStrings : Bool
  /-- The position of the section's string block in the file. -/
  stringBlockStart : Nat
  relationships : Option RelationshipTable
  pallet : Option PalletTable
  common : Option CommonTable
  deriving DecidableEq, Repr

/-- What changes while a row is decoded. -/
structure RowState where
  bits : BitReader
  /-- The pallet array that was read last, by its descriptor's position, and its index. -/
  palletIndex : Option (Nat × Nat)
  strings : StringTable
  deriving DecidableEq, Repr

def RowState.start (data : Bytes) (strings : StringTable) : RowState :=
  ⟨.ofBytes data, none, strings⟩

/-- A computation that decodes a part of a row. -/
abbrev Decode := Attempt RowState

namespace Decode

def bits {α : Type} (read : BitRead α) : Decode α :=
  read.focus RowState.bits fun bits s => { s with bits }

def string (offset : UInt32) : Decode Scalar := do
  let lookup := (StringTable.resolve offset).focus RowState.strings fun strings s =>
    { s with strings }
  return .text (← lookup)

end Decode

namespace RowContext

def descriptor (c : RowContext) (index : Nat) : Except Error Descriptor :=
  match c.descriptors[index]? with
  | some d => return d
  | none => throw (.invalid (.missingDescriptor index))

def inlineWord (c : RowContext) (d : Descriptor) (element : Nat) (signed : Bool) :
    Decode (BitVec 64) := do
  if c.isVariable then
    Decode.bits (BitRead.word d.bitSize signed)
  else
    (← get).bits.readWordAt (d.bitOffset + element * d.bitSize) d.bitSize signed

/-- The offset in the string block that a cell stands for which starts at a bit of the row and holds
`stored`. Relative cells count from the byte with the cell's first bit. -/
def stringOffset (c : RowContext) (bit stored : Nat) : Except Error UInt32 :=
  if c.hasRelativeStrings then
    let position := c.offset + bit / 8 + stored
    if positionLimit ≤ position then throw (.invalid (.stringOffsetOverflow stored))
    else if position < c.stringBlockStart then
      throw (.invalid (.stringBeforeBlock position c.stringBlockStart))
    else if wordLimit ≤ position - c.stringBlockStart then
      throw (.invalid (.stringOffsetRange (position - c.stringBlockStart)))
    else return UInt32.ofNat (position - c.stringBlockStart)
  else return UInt32.ofNat stored

def inlineString (c : RowContext) (d : Descriptor) (element : Nat) : Decode Scalar := do
  if c.isVariable then
    return .text (← Decode.bits BitRead.text)
  else
    let bit := d.bitOffset + element * d.bitSize
    let stored ← (← get).bits.readAt bit d.bitSize
    Decode.string (← c.stringOffset bit stored)

def palletTable (c : RowContext) : Except Error PalletTable :=
  match c.pallet with
  | some pallet => return pallet
  | none => throw (.unsupported .palletWithoutBlock)

/-- The element that a word from a lookup table stands for. Such a word is a 32-bit number of either
sort, a string offset, or a single-precision number. -/
def wordScalar (word : UInt32) (kind : FieldKind) : Decode Scalar :=
  match kind with
  | .text => Decode.string word
  | .f64 => return .f64 (Float.widen word.toBitVec)
  | kind =>
    let bits := word.toBitVec
    Scalar.ofWord (if kind.isSigned then bits.signExtend 64 else bits.setWidth 64) kind

/-- The index that stands in the row for an array in the pallet block. It is read once for all
elements. -/
def palletArrayIndex (c : RowContext) (index : Nat) (d : Descriptor) : Decode Nat := do
  match (← get).palletIndex with
  | some (cached, stored) =>
    if cached = index then return stored else readIndex
  | none => readIndex
where
  /-- Reads the index and remembers it. -/
  readIndex : Decode Nat := do
    let stored := (← c.inlineWord d 0 false).toNat
    modify fun s => { s with palletIndex := some (index, stored) }
    return stored

def element (c : RowContext) (index element : Nat) (kind : FieldKind) : Decode Scalar := do
  let d ← c.descriptor index
  match d.storage with
  | .plain signed | .immediate signed =>
    if kind = .text then c.inlineString d element
    else Scalar.ofWord (← c.inlineWord d element signed) kind
  | .pallet chunk =>
    let stored ← c.inlineWord d element false
    wordScalar (← (← c.palletTable).word chunk.start stored.toNat) kind
  | .palletArray chunk =>
    let stored ← c.palletArrayIndex index d
    let slot := stored * d.cardinality + element
    if positionLimit ≤ slot then throw (.invalid (.palletIndexOverflow stored))
    wordScalar (← (← c.palletTable).word chunk.start slot) kind
  | .relationship =>
    let key := c.relationships.bind fun r => r.foreignKey? (UInt32.ofNat c.index)
    wordScalar (key.getD 0) kind
  | .common .. => throw (.unsupported .commonInBody)

def commonElement (c : RowContext) (index : Nat) (kind : FieldKind) (key : Option UInt32) :
    Decode Scalar := do
  let d ← c.descriptor index
  match d.storage with
  | .common value _ =>
    let own := c.common.bind fun table => key.bind fun key => table.value? index key
    wordScalar (own.getD value) kind
  | _ => throw (.unsupported .notCommon)

def inlineKey (c : RowContext) (index : Nat) : Decode UInt32 := do
  let d ← c.descriptor index
  match d.storage with
  | .plain _ | .immediate _ =>
    return UInt32.ofNat (← c.inlineWord d 0 false).toNat
  | _ => throw (.unsupported .keyNotInline)

end RowContext

end ClientTable
