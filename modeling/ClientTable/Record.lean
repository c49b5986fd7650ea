import ClientTable.Value

namespace ClientTable

/-- A decoded record. -/
structure Record where
  schema : Schema
  values : List Value
  keyField : Nat
  deriving DecidableEq, Repr

namespace Record

def at? (r : Record) (index : Nat) : Option Value :=
  r.values[index]?

def get? (r : Record) (name : String) : Option Value :=
  (r.schema.position? name).bind r.at?

/-- The key, if the key field holds a number that can be one. -/
def key? (r : Record) : Option UInt32 :=
  (r.at? r.keyField).bind Value.toWord?

/-- The record under another key, which its key field holds in its own integer kind. -/
def withKey (r : Record) (key : UInt32) : Except Error Record :=
  match r.at? r.keyField with
  | none => throw (.unsupported .noKeyField)
  | some value => do return { r with values := r.values.set r.keyField (← value.withKey key) }

end Record

/-- Types that a caller has records converted to. -/
class FromRecord (α : Type) where
  /-- The fields that the type needs, in order. -/
  schema : Schema
  /-- The value that a record stands for. -/
  fromRecord : Record → Except Error α

end ClientTable
