import ClientTable.Mapping
import ClientTable.Row.Element

namespace ClientTable

/-- The elements of one field as far as they have been read. -/
abbrev Elements := List (Option Scalar)

namespace FieldPlan

/-- The elements of a field that do not need the record's key. -/
def bodyElements (c : RowContext) (externalKey : Option UInt32) (p : FieldPlan) :
    Decode Elements :=
  match p.source with
  | .indexTable =>
    match externalKey with
    | some key => do return [some (← Scalar.ofWord (key.toBitVec.setWidth 64) p.kind)]
    | none => throw (.unsupported .keyWithoutIndexTable)
  | .slots slots =>
    slots.mapM fun slot =>
      if slot.isCommon then return none
      else do return some (← c.element slot.descriptor slot.element p.kind)

/-- The elements of a field with those added that need the record's key. -/
def fillElements (c : RowContext) (key : Option UInt32) (kind : FieldKind) :
    List Slot → Elements → Decode Elements
  | slot :: slots, none :: elements => do
    let value ← c.commonElement slot.descriptor kind key
    return some value :: (← fillElements c key kind slots elements)
  | _ :: slots, some value :: elements => do
    return some value :: (← fillElements c key kind slots elements)
  | _, elements => return elements

def value (p : FieldPlan) (elements : Elements) : Except Error Value :=
  let scalars := elements.filterMap id
  if p.isArray then return .array (scalars.map .scalar)
  else
    match scalars with
    | s :: _ => return .scalar s
    | [] => throw (.invalid .missingValue)

end FieldPlan

namespace Mapping

/-- The key that stands in the row: the decoded key field if that holds one, else what the row of
fixed size has in its place. -/
def bodyKey (m : Mapping) (c : RowContext) (fields : List Elements) : Decode (Option UInt32) :=
  let elements := (m.keyField?.bind fun position => fields[position]?).getD []
  let decoded := elements.head?.join.bind Scalar.toWord?
  match decoded, m.keyDescriptor? with
  | some key, _ => return some key
  | none, some descriptor =>
    if c.isVariable then return none else do return some (← c.inlineKey descriptor)
  | none, none => return none

def fillFields (c : RowContext) (key : Option UInt32) :
    List FieldPlan → List Elements → Decode (List Elements)
  | p :: plans, elements :: fields => do
    let filled ← FieldPlan.fillElements c key p.kind p.source.slotList elements
    return filled :: (← fillFields c key plans fields)
  | _, _ => return []

def fieldValues : List FieldPlan → List Elements → Except Error (List Value)
  | p :: plans, elements :: fields => do
    let first ← p.value elements
    return first :: (← fieldValues plans fields)
  | _, _ => return []

/-- The values of a row, whose key comes from the index table if there is one. -/
def values (m : Mapping) (c : RowContext) (externalKey : Option UInt32) : Decode (List Value) := do
  let body ← m.fields.mapM (FieldPlan.bodyElements c externalKey)
  if m.needsKey then
    let key ← match externalKey with
      | some key => pure (some key)
      | none => m.bodyKey c body
    fieldValues m.fields (← fillFields c key m.fields body)
  else
    fieldValues m.fields body

end Mapping

end ClientTable
