import ClientTable.Section

/-!
The records of a file, section after section. They are given out one at a time, and nothing is read
before it is needed. An error is the last thing given out.
-/

namespace ClientTable

/-- What is given out: a record, or the error that ends the records. -/
abbrev Item := Except Error Record

/-- How far the records of a file have been given out. -/
structure Records where
  source : Source
  metadata : Metadata
  shared : SharedTables
  internStrings : Bool
  /-- The sections still to be opened. -/
  upcoming : List SectionLayout
  current : Option Section
  finished : Bool
  deriving DecidableEq, Repr

namespace Records

/-- All records of a file, of which none has been given out. -/
def start (source : Source) (m : Metadata) (internStrings : Bool) : Reading Records := do
  return {
    source
    metadata := m
    shared := ← SharedTables.read source m
    internStrings
    upcoming := m.layout.sections
    current := none
    finished := false }

def finish (r : Records) : Records :=
  { r with current := none, upcoming := [], finished := true }

/-- The records after an item that the section `s` gave out. An error is the last item. -/
def after (r : Records) (item : Item) (s : Section) : Records :=
  match item with
  | .ok _ => { r with current := some s }
  | .error _ => r.finish

/-- The first item of the given sections, which are opened in turn. -/
def openNext (r : Records) (h : Header) : List SectionLayout → StateM Nat (Option Item × Records)
  | [] => return (none, r.finish)
  | layout :: rest => do
    match ← (Section.read r.source h layout r.internStrings).run with
    | .error e => return (some (.error e), r.finish)
    | .ok s =>
      match ← s.next r.source r.metadata r.shared with
      | (some item, s) => return (some item, after { r with upcoming := rest } item s)
      | (none, _) => openNext r h rest

def nextSection (r : Records) : StateM Nat (Option Item × Records) :=
  match r.metadata.header with
  | some h => r.openNext h r.upcoming
  | none => return (none, r.finish)

def next (r : Records) : StateM Nat (Option Item × Records) := do
  if r.finished then return (none, r)
  match r.current with
  | none => r.nextSection
  | some s =>
    match ← s.next r.source r.metadata r.shared with
    | (some item, s) => return (some item, r.after item s)
    | (none, _) => nextSection { r with current := none }

/-- What a number of polls give, also after the end has been seen. -/
def polls : (count : Nat) → Records → StateM Nat (List (Option Item))
  | 0, _ => return []
  | count + 1, r => do
    let (item, r) ← r.next
    return item :: (← polls count r)

/-- The next items, at most `limit` of them. Fewer are given out only where the end has been seen.
-/
def take : (limit : Nat) → Records → StateM Nat (List Item × Records)
  | 0, r => return ([], r)
  | limit + 1, r => do
    match ← r.next with
    | (none, r) => return ([], r)
    | (some item, r) =>
      let (items, r) ← take limit r
      return (item :: items, r)

def skip (count : Nat) (r : Records) : StateM Nat Records := do
  return (← take count r).2

/-- The next items after the first `count`, at most `limit` of them. Items are passed over only when
one after them is asked for, so a limit of none reads nothing. -/
def takeAfter (count limit : Nat) (r : Records) : StateM Nat (List Item × Records) := do
  if limit = 0 then return ([], r) else take limit (← skip count r)

/-- More than the number of items that a section with the given layout has: each record once, and
once for each of its copies. -/
def sectionBound (layout : SectionLayout) : Nat :=
  let copies := match layout.find? .copyTable with
    | some segment => segment.length / CopyTable.entrySize
    | none => 0
  layout.recordCount.toNat * (copies + 1) + 1

/-- More than the number of items that a file has. -/
def bound (m : Metadata) : Nat :=
  total (m.layout.sections.map sectionBound) + 1

def toList (r : Records) : StateM Nat (List Item) := do
  return (← take (bound r.metadata) r).1

end Records

end ClientTable
