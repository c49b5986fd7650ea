import ClientTable.Descriptor
import ClientTable.Parse
import ClientTable.Quantity

namespace ClientTable

/-- What a file says about one field. -/
structure FieldInfo where
  /-- The element width, written as what is missing to 32 bits; wider elements have a negative one.
  -/
  missingBits : UInt16
  /-- The byte position in the record. -/
  position : UInt16
  deriving DecidableEq, Repr

namespace FieldInfo

def parse : Parse FieldInfo := do
  return { missingBits := ← Parse.u16, position := ← Parse.u16 }

/-- The declared width of an element, which may make no sense. -/
def declaredBits (info : FieldInfo) : Int :=
  32 - info.missingBits.toInt16.toInt

/-- The width of an element, from 1 to 64 bits. -/
def bitSize (info : FieldInfo) : Except Error Nat :=
  if 1 ≤ info.declaredBits ∧ info.declaredBits ≤ 64 then return info.declaredBits.toNat
  else throw (.invalid (.fieldWidth info.position.toNat info.declaredBits))

def bitOffset (info : FieldInfo) : Nat :=
  info.position.toNat * 8

/-- How many elements of `bitSize` bits the entry at `index` has, where `rest` follows it. Records
that vary in length do not tell for the last field, which then has one. -/
def elements (h : Header) (index : Nat) (info : FieldInfo) (bitSize : Nat) :
    (rest : List FieldInfo) → Except Error Nat
  | next :: _ =>
    if next.position < info.position then
      throw (.invalid (.fieldOrder (index + 1) next.position.toNat info.position.toNat))
    else return (next.bitOffset - info.bitOffset) / bitSize
  | [] =>
    if h.hasOffsetMap then return 1
    else return (h.recordBits - info.bitOffset) / bitSize % wordLimit

def descriptors (h : Header) : (index : Nat) → List FieldInfo → Except Error (List Descriptor)
  | _, [] => return []
  | index, info :: rest => do
    let bitSize ← info.bitSize
    let count ← info.elements h index bitSize rest
    let others ← descriptors h (index + 1) rest
    return ⟨info.bitOffset, bitSize, max count 1, .plain false⟩ :: others

end FieldInfo

end ClientTable
