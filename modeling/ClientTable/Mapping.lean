import ClientTable.Descriptor
import ClientTable.Schema

/-!
How the fields of a schema are fed. The stored elements of a file, field after field, are its slots;
the fields of the schema take them in order, as many as they have elements. Where there is an index
table, the field that holds the key takes none and is fed from the table.
-/

namespace ClientTable

/-- One stored element. -/
structure Slot where
  descriptor : Nat
  element : Nat
  /-- Whether it is stored in the common block, and so found by the record's key. -/
  isCommon : Bool
  deriving DecidableEq, Repr

/-- Neighbouring slots of one descriptor. A descriptor may have more of them than fit in a list. -/
structure SlotRun where
  descriptor : Nat
  first : Nat
  count : Nat
  isCommon : Bool
  deriving DecidableEq, Repr

namespace SlotRun

/-- The first `count` slots of a run. -/
def front (r : SlotRun) (count : Nat) : List Slot :=
  (List.range' r.first count).map fun element => ⟨r.descriptor, element, r.isCommon⟩

def slots (r : SlotRun) : List Slot :=
  r.front r.count

def drop (r : SlotRun) (count : Nat) : SlotRun :=
  { r with first := r.first + count, count := r.count - count }

def ofDescriptor (d : Descriptor) (index : Nat) : SlotRun :=
  ⟨index, 0, d.cardinality, d.isCommon⟩

def ofDescriptors (descriptors : List Descriptor) : List SlotRun :=
  descriptors.zipIdx.map fun (d, index) => ofDescriptor d index

def size (runs : List SlotRun) : Nat :=
  total (runs.map count)

/-- The first `count` slots of runs, and the runs without them. -/
def takeSlots : (count : Nat) → List SlotRun → List Slot × List SlotRun
  | _, [] => ([], [])
  | count, r :: runs =>
    if count < r.count then (r.front count, r.drop count :: runs)
    else
      let (slots, left) := takeSlots (count - r.count) runs
      (r.slots ++ slots, left)

def flatten (runs : List SlotRun) : List Slot :=
  runs.flatMap slots

@[simp]
theorem length_front (r : SlotRun) (count : Nat) : (r.front count).length = count := by
  simp [front]

theorem front_append_slots_drop (r : SlotRun) {count : Nat} (h : count ≤ r.count) :
    r.front count ++ (r.drop count).slots = r.slots := by
  simp only [front, slots, drop, ← List.map_append, List.range'_append_1]
  rw [Nat.add_sub_cancel' h]

theorem takeSlots_append (count : Nat) (runs : List SlotRun) :
    (takeSlots count runs).1 ++ flatten (takeSlots count runs).2 = flatten runs := by
  induction runs generalizing count with
  | nil => rfl
  | cons r runs ih =>
    simp only [takeSlots]
    split
    case isTrue h =>
      simp only [flatten, List.flatMap_cons, ← List.append_assoc]
      rw [front_append_slots_drop r (Nat.le_of_lt h)]
    case isFalse h =>
      simp only [flatten, List.flatMap_cons, List.append_assoc] at ih ⊢
      rw [ih]

theorem length_takeSlots (count : Nat) (runs : List SlotRun) :
    (takeSlots count runs).1.length = min count (size runs) := by
  induction runs generalizing count with
  | nil => simp [takeSlots, size]
  | cons r runs ih =>
    simp only [takeSlots, size, List.map_cons, total_cons] at ih ⊢
    split
    case isTrue h => simp only [length_front]; omega
    case isFalse h => simp only [List.length_append, slots, length_front, ih]; omega

end SlotRun

/-- What feeds a field. -/
inductive FieldSource where
  | indexTable
  | slots (slots : List Slot)
  deriving DecidableEq, Repr

def FieldSource.slotList : FieldSource → List Slot
  | .indexTable => []
  | .slots list => list

/-- A field of the schema with what feeds it. -/
structure FieldPlan where
  kind : FieldKind
  isArray : Bool
  source : FieldSource
  deriving DecidableEq, Repr

/-- Whether a field starts with an element of the descriptor at a position. -/
def FieldPlan.startsAt (descriptor : Nat) (p : FieldPlan) : Bool :=
  p.source.slotList.head?.any fun s => s.descriptor = descriptor

/-- How all fields of a schema are fed. -/
structure Mapping where
  fields : List FieldPlan
  /-- The field that holds the key, if any does. -/
  keyField? : Option Nat
  /-- The descriptor of the key, where the key stands in the record. -/
  keyDescriptor? : Option Nat
  deriving DecidableEq, Repr

namespace Mapping

/-- Whether common data is needed, and with it the key. -/
def needsKey (m : Mapping) : Bool :=
  m.fields.any fun p => p.source.slotList.any Slot.isCommon

/-- The position of the key field in records, which is the first where none is mapped. -/
def keyField (m : Mapping) : Nat :=
  m.keyField?.getD 0

/-- A field that is fed from an index table has to be there and to be a number. -/
def checkIndexField (schema : Schema) (column : Nat) : Except Error Unit :=
  match schema.fields[column]? with
  | none => throw (.invalid (.indexColumnOutside column schema.size))
  | some f =>
    if f.kind = .text ∨ f.isArray then throw (.invalid (.indexColumnNotScalar f.name)) else return

/-- Feeds the fields from `position` on with the slots of the runs, except for the field that is fed
from the index table. -/
def assign (indexField? : Option Nat) : (position : Nat) → List Field → List SlotRun →
    Except Error (List FieldPlan)
  | _, [], _ => return []
  | position, f :: fields, runs =>
    if indexField? = some position then do
      let others ← assign indexField? (position + 1) fields runs
      return ⟨f.kind, false, .indexTable⟩ :: others
    else if SlotRun.size runs < f.arity then
      throw (.invalid (.elementsExhausted f.name f.arity (SlotRun.size runs)))
    else do
      let (slots, left) := SlotRun.takeSlots f.arity runs
      let others ← assign indexField? (position + 1) fields left
      return ⟨f.kind, f.isArray, .slots slots⟩ :: others

/-- The mapping for sections that have an index table, which feeds the field at `indexColumn`. -/
def buildIndexed (schema : Schema) (descriptors : List Descriptor) (indexColumn : Nat) :
    Except Error Mapping := do
  checkIndexField schema indexColumn
  let fields ← assign (some indexColumn) 0 schema.fields (SlotRun.ofDescriptors descriptors)
  return ⟨fields, some indexColumn, none⟩

/-- The mapping for sections whose records hold their keys in the descriptor at `indexColumn`. -/
def buildInline (schema : Schema) (descriptors : List Descriptor) (indexColumn : Nat) :
    Except Error Mapping := do
  let fields ← assign none 0 schema.fields (SlotRun.ofDescriptors descriptors)
  return ⟨fields, fields.findIdx? (FieldPlan.startsAt indexColumn),
    if indexColumn < descriptors.length then some indexColumn else none⟩

/-- How the fields of a schema are fed from stored fields. -/
def build (schema : Schema) (descriptors : List Descriptor) (indexColumn : Nat)
    (hasIndexTable : Bool) : Except Error Mapping :=
  if hasIndexTable then buildIndexed schema descriptors indexColumn
  else buildInline schema descriptors indexColumn

end Mapping

end ClientTable
