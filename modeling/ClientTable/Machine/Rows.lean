import ClientTable.Machine.Tables
import ClientTable.Row.Values

/-!
Decoding a row with the words of a machine. Bits are gathered byte by byte.
-/

namespace ClientTable.Machine

/-- What `value` becomes when the bits that are still missing to `count` are taken from the bytes,
as many from each as it has. Its first `written` bits stand, and the next is the one at
`position`. -/
def gather (data : Bytes) (count written position value : Nat) : Checked Nat :=
  if written < count then do
    let byte ← (Checked.item data (position / 8) : Except Trap UInt8)
    let shift := position % 8
    let room ← Checked.sub 8 shift
    let left ← Checked.sub count written
    let mask ← Checked.sub (1 <<< min room left) 1
    let taken := (byte.toNat >>> shift) &&& mask
    let _ ← Checked.fit positionLimit (taken <<< written)
    let _ ← Checked.add wordLimit written (min room left)
    let _ ← Checked.add positionLimit position (min room left)
    gather data count (written + min (8 - position % 8) (count - written))
      (position + min (8 - position % 8) (count - written)) (value ||| taken <<< written)
  else return value
termination_by count - written
decreasing_by omega

def readAt (r : BitReader) (offset count : Nat) : Checked Nat :=
  if count < 1 ∨ 64 < count then throw (.invalid (.bitCount count))
  else do
    let stop ← Checked.add positionLimit offset count
    let size ← Checked.mul positionLimit r.data.length 8
    if size < stop then throw (.invalid (.bitRange offset stop size))
    else gather r.data count 0 offset 0

def signExtend (word : BitVec 64) (count : Nat) : Checked (BitVec 64) :=
  if count = 0 ∨ 64 ≤ count then return word
  else do
    let shift ← Checked.sub 64 count
    return (word <<< shift).sshiftRight shift

def readWordAt (r : BitReader) (offset count : Nat) (signed : Bool) : Checked (BitVec 64) := do
  let value ← readAt r offset count
  if signed then signExtend (BitVec.ofNat 64 value) count else return BitVec.ofNat 64 value

def readWord (count : Nat) (signed : Bool) : Guarded BitReader (BitVec 64) := do
  let r ← get
  let value ← readWordAt r r.cursor count signed
  let cursor ← Checked.add positionLimit r.cursor count
  set { r with cursor }
  return value

def readText : Guarded BitReader String := do
  let r ← get
  if r.cursor % 8 ≠ 0 then throw (.invalid (.unalignedText r.cursor))
  match ← terminated? (r.data.drop (r.cursor / 8)) with
  | none => throw (.invalid .unterminatedText)
  | some bytes =>
    let consumed ← Checked.add positionLimit bytes.length 1
    let bits ← Checked.mul positionLimit consumed 8
    let cursor ← Checked.add positionLimit r.cursor bits
    set { r with cursor }
    return Utf8.decode bytes

def bits {α : Type} (read : Guarded BitReader α) : Guarded RowState α :=
  read.focus RowState.bits fun bits s => { s with bits }

def string (offset : UInt32) : Guarded RowState Scalar := do
  let lookup := (resolve offset).focus RowState.strings fun strings s => { s with strings }
  return .text (← lookup)

def elementBit (d : Descriptor) (element : Nat) : Checked Nat := do
  let distance ← Checked.mul positionLimit element d.bitSize
  Checked.add positionLimit d.bitOffset distance

def inlineWord (c : RowContext) (d : Descriptor) (element : Nat) (signed : Bool) :
    Guarded RowState (BitVec 64) := do
  if c.isVariable then bits (readWord d.bitSize signed)
  else
    let bit ← elementBit d element
    readWordAt (← get).bits bit d.bitSize signed

def stringOffset (c : RowContext) (bit stored : Nat) : Checked UInt32 :=
  if c.hasRelativeStrings then do
    let cell ← Checked.add positionLimit c.offset (bit / 8)
    let position := cell + stored
    if positionLimit ≤ position then throw (.invalid (.stringOffsetOverflow stored))
    else if position < c.stringBlockStart then
      throw (.invalid (.stringBeforeBlock position c.stringBlockStart))
    else do
      let distance ← Checked.sub position c.stringBlockStart
      if wordLimit ≤ distance then throw (.invalid (.stringOffsetRange distance))
      else return UInt32.ofNat distance
  else return UInt32.ofNat stored

def inlineString (c : RowContext) (d : Descriptor) (element : Nat) : Guarded RowState Scalar := do
  if c.isVariable then return .text (← bits readText)
  else
    let bit ← elementBit d element
    let stored ← readAt (← get).bits bit d.bitSize
    string (← stringOffset c bit stored)

def wordScalar (word : UInt32) (kind : FieldKind) : Guarded RowState Scalar :=
  match kind with
  | .text => string word
  | kind => RowContext.wordScalar word kind

def readPalletIndex (c : RowContext) (index : Nat) (d : Descriptor) : Guarded RowState Nat := do
  let stored := (← inlineWord c d 0 false).toNat
  modify fun s => { s with palletIndex := some (index, stored) }
  return stored

def palletArrayIndex (c : RowContext) (index : Nat) (d : Descriptor) : Guarded RowState Nat := do
  match (← get).palletIndex with
  | some (cached, stored) => if cached = index then return stored else readPalletIndex c index d
  | none => readPalletIndex c index d

def element (c : RowContext) (index element : Nat) (kind : FieldKind) :
    Guarded RowState Scalar := do
  let d ← c.descriptor index
  match d.storage with
  | .plain signed | .immediate signed =>
    if kind = .text then inlineString c d element
    else Scalar.ofWord (← inlineWord c d element signed) kind
  | .pallet chunk =>
    let stored ← inlineWord c d element false
    wordScalar (← palletWord (← c.palletTable) chunk.start stored.toNat) kind
  | .palletArray chunk =>
    let stored ← palletArrayIndex c index d
    let slot := stored * d.cardinality + element
    if positionLimit ≤ slot then throw (.invalid (.palletIndexOverflow stored))
    wordScalar (← palletWord (← c.palletTable) chunk.start slot) kind
  | .relationship =>
    let key := c.relationships.bind fun r => r.foreignKey? (UInt32.ofNat c.index)
    wordScalar (key.getD 0) kind
  | .common .. => throw (.unsupported .commonInBody)

def commonElement (c : RowContext) (index : Nat) (kind : FieldKind) (key : Option UInt32) :
    Guarded RowState Scalar := do
  let d ← c.descriptor index
  match d.storage with
  | .common value _ =>
    let own := c.common.bind fun table => key.bind fun key => table.value? index key
    wordScalar (own.getD value) kind
  | _ => throw (.unsupported .notCommon)

def inlineKey (c : RowContext) (index : Nat) : Guarded RowState UInt32 := do
  let d ← c.descriptor index
  match d.storage with
  | .plain _ | .immediate _ => return UInt32.ofNat (← inlineWord c d 0 false).toNat
  | _ => throw (.unsupported .keyNotInline)

def bodyElements (c : RowContext) (externalKey : Option UInt32) (p : FieldPlan) :
    Guarded RowState Elements :=
  match p.source with
  | .indexTable =>
    match externalKey with
    | some key => do return [some (← Scalar.ofWord (key.toBitVec.setWidth 64) p.kind)]
    | none => throw (.unsupported .keyWithoutIndexTable)
  | .slots slots =>
    slots.mapM fun slot =>
      if slot.isCommon then return none
      else do return some (← element c slot.descriptor slot.element p.kind)

def fillElements (c : RowContext) (key : Option UInt32) (kind : FieldKind) :
    List Slot → Elements → Guarded RowState Elements
  | slot :: slots, none :: elements => do
    let value ← commonElement c slot.descriptor kind key
    return some value :: (← fillElements c key kind slots elements)
  | _ :: slots, some value :: elements => do
    return some value :: (← fillElements c key kind slots elements)
  | _, elements => return elements

def bodyKey (m : Mapping) (c : RowContext) (fields : List Elements) :
    Guarded RowState (Option UInt32) :=
  let elements := (m.keyField?.bind fun position => fields[position]?).getD []
  let decoded := elements.head?.join.bind Scalar.toWord?
  match decoded, m.keyDescriptor? with
  | some key, _ => return some key
  | none, some descriptor =>
    if c.isVariable then return none else do return some (← inlineKey c descriptor)
  | none, none => return none

def fillFields (c : RowContext) (key : Option UInt32) :
    List FieldPlan → List Elements → Guarded RowState (List Elements)
  | p :: plans, elements :: fields => do
    let filled ← fillElements c key p.kind p.source.slotList elements
    return filled :: (← fillFields c key plans fields)
  | _, _ => return []

def values (m : Mapping) (c : RowContext) (externalKey : Option UInt32) :
    Guarded RowState (List Value) := do
  let body ← m.fields.mapM (bodyElements c externalKey)
  if m.needsKey then
    let key ← match externalKey with
      | some key => pure (some key)
      | none => bodyKey m c body
    Mapping.fieldValues m.fields (← fillFields c key m.fields body)
  else
    Mapping.fieldValues m.fields body

end ClientTable.Machine
