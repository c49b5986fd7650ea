import ClientTable.Machine.Opening
import ClientTable.Machine.Sections
import ClientTable.Session

namespace ClientTable.Machine

/-- How far the records of a file have been given out. -/
structure Records where
  metadata : Metadata
  shared : SharedTables
  internStrings : Bool
  /-- The number of sections that have been opened. -/
  opened : Nat
  current : Option Section
  finished : Bool
  deriving DecidableEq, Repr

namespace Records

def start (m : Metadata) (internStrings : Bool) : Guarded Drive Records := do
  return ⟨m, ← readShared m, internStrings, 0, none, false⟩

def finish (r : Records) : Records :=
  { r with finished := true }

def after (r : Records) (item : Item) (s : Section) : Records :=
  match item with
  | .ok _ => { r with current := some s }
  | .error _ => finish { r with current := some s }

def openNext (r : Records) (h : Header) : Stepwise Drive (Option Item × Records) :=
  if r.opened < r.metadata.layout.sections.length then do
    let layout ← Checked.item r.metadata.layout.sections r.opened
    let opened ← Checked.add positionLimit r.opened 1
    match ← (readSection h layout r.internStrings).run with
    | .error e => return (some (.error e), finish { r with opened })
    | .ok s =>
      match ← nextRecord r.metadata r.shared s with
      | (some item, s) => return (some item, after { r with opened } item s)
      | (none, _) => openNext { r with opened := r.opened + 1, current := none } h
  else return (none, r.finish)
termination_by r.metadata.layout.sections.length - r.opened
decreasing_by
  show r.metadata.layout.sections.length - (r.opened + 1) < _
  omega

def nextSection (r : Records) : Stepwise Drive (Option Item × Records) :=
  match r.metadata.header with
  | some h => r.openNext h
  | none => return (none, r.finish)

def next (r : Records) : Stepwise Drive (Option Item × Records) := do
  if r.finished then return (none, r)
  match r.current with
  | none => r.nextSection
  | some s =>
    match ← nextRecord r.metadata r.shared s with
    | (some item, s) => return (some item, r.after item s)
    | (none, _) => nextSection { r with current := none }

def polls : (count : Nat) → Records → Stepwise Drive (List (Option Item))
  | 0, _ => return []
  | count + 1, r => do
    let (item, r) ← r.next
    return item :: (← polls count r)

end Records

/-- An open table file. -/
structure Reader where
  drive : Drive
  metadata : Metadata
  options : Options
  deriving DecidableEq, Repr

namespace Reader

/-- Opens the file that starts at the stream's position. The number of copies is only logged. -/
def ofStream (stream : Stream) (schema : Schema) (options : Options) : Checked Reader := do
  let drive ← Drive.ofStream stream options.copyToMemory
  let (outcome, drive) ← (readMetadata schema).on drive
  let metadata ← outcome
  let _ ← copyCount metadata
  return ⟨drive, metadata, options⟩

def withMetadata (stream : Stream) (m : Metadata) (options : Options) : Except Error Reader := do
  return ⟨← Drive.ofStream stream options.copyToMemory, m, options⟩

def poll (count : Nat) (r : Reader) :
    Except Trap (Except Error (List (Option Item)) × Reader) := do
  let (outcome, drive) ← (Records.start r.metadata r.options.internStrings).on r.drive
  match outcome with
  | .error e => return (.error e, { r with drive })
  | .ok records =>
    let (items, drive) ← (records.polls count).run drive
    return (.ok items, { r with drive })

def perform (stream : Stream) : Action → Reader → Except Trap (Answer × Reader)
  | .records polls, r => do
    let (outcome, r) ← r.poll polls
    return (.items outcome, r)
  | .count, r => do
    return (.count (← (totalRecordCount r.metadata).run), r)
  | .reopen options, r =>
    match withMetadata stream r.metadata options with
    | .error e => return (.reopened (.error e), r)
    | .ok r => return (.reopened (.ok ()), r)

def answers (stream : Stream) : List Action → Reader → Except Trap (List Answer)
  | [], _ => return []
  | action :: actions, r => do
    let (answer, r) ← r.perform stream action
    let others ← answers stream actions r
    return answer :: others

end Reader

def session (stream : Stream) (schema : Schema) (options : Options) (actions : List Action) :
    Checked (List Answer) := do
  let r ← Reader.ofStream stream schema options
  let answers ← r.answers stream actions
  return answers

/-- One use of an open file: its records, or what they stand for, polled a number of times. -/
inductive Use : Type 1 where
  | records (polls : Nat)
  | typedRecords (α : Type) [FromRecord α] (polls : Nat)

namespace Use

/-- What is polled for. -/
def Polled : Use → Type
  | records _ => Item
  | typedRecords α _ => Except Error α

def run : (u : Use) → Reader → Except Trap (Except Error (List (Option u.Polled)) × Reader)
  | records count, r => r.poll count
  | typedRecords α count, r => do
    let (outcome, r) ← r.poll count
    return (outcome.map fun items => items.map fun item => item.map (ClientTable.Reader.typed α), r)

/-- The reader that a number of uses leave behind, one after the other. -/
def runAll : List Use → Reader → Except Trap Reader
  | [], r => return r
  | u :: uses, r => do
    let (_, r) ← u.run r
    runAll uses r

end Use

end ClientTable.Machine
