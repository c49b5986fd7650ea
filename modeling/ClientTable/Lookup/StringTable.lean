import ClientTable.Source
import ClientTable.Text.Utf8

namespace ClientTable

/-- A string block. Texts already found are kept if there is a list to keep them in. -/
structure StringTable where
  bytes : Bytes
  found : Option (List (UInt32 × String))
  deriving DecidableEq, Repr

/-- A computation that looks texts up. -/
abbrev StringLookup := Attempt StringTable

namespace StringTable

def ofBytes (bytes : Bytes) (intern : Bool) : StringTable :=
  ⟨bytes, if intern then some [] else none⟩

def size (t : StringTable) : Nat :=
  t.bytes.length

def textAt (bytes : Bytes) (offset : UInt32) : Except Error String :=
  if bytes.length < offset.toNat then
    throw (.invalid (.stringOutside offset.toNat bytes.length))
  else
    match terminated? (bytes.drop offset.toNat) with
    | some text => return Utf8.decode text
    | none => throw (.invalid (.unterminatedString offset.toNat))

def found? (t : StringTable) (offset : UInt32) : Option String :=
  t.found.bind fun texts => texts.lookup offset

def keep (t : StringTable) (offset : UInt32) (text : String) : StringTable :=
  { t with found := t.found.map ((offset, text) :: ·) }

/-- The text that starts at an offset. -/
def resolve (offset : UInt32) : StringLookup String := do
  let t ← get
  match t.found? offset with
  | some text => return text
  | none =>
    let text ← textAt t.bytes offset
    set (t.keep offset text)
    return text

def read (source : Source) (segment : Segment) (intern : Bool) : Reading StringTable := do
  return ofBytes (← source.readSegment segment) intern

theorem on_resolve_of_found {t : StringTable} {offset : UInt32} {text : String}
    (h : t.found? offset = some text) : (resolve offset).on t = (.ok text, t) := by
  simp only [resolve, Attempt.on_bind, Attempt.on_get, h]
  rfl

theorem on_resolve_of_not_found {t : StringTable} {offset : UInt32} (h : t.found? offset = none) :
    (resolve offset).on t =
      match textAt t.bytes offset with
      | .ok text => (.ok text, t.keep offset text)
      | .error e => (.error e, t) := by
  simp only [resolve, Attempt.on_bind, Attempt.on_get, h, Attempt.on_lift]
  cases textAt t.bytes offset <;> rfl

end StringTable

end ClientTable
