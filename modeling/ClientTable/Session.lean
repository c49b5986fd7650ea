import ClientTable.Reader

namespace ClientTable

/-- What a caller does with an open file. -/
inductive Action where
  /-- Starts with the first record and polls that often. -/
  | records (polls : Nat)
  /-- Asks how many records there are, copies included. -/
  | count
  /-- Opens another copy of the file, to go on with that one. -/
  | reopen (options : Options)
  deriving DecidableEq, Repr

/-- What comes of an action. -/
inductive Answer where
  | items (outcome : Except Error (List (Option Item)))
  | count (outcome : Except Error Nat)
  | reopened (outcome : Except Error Unit)

namespace Reader

def poll (count : Nat) (r : Reader) : Except Error (List (Option Item)) :=
  match r.records.on 0 with
  | (.error e, _) => throw e
  | (.ok records, started) => return ((records.polls count).run started).1

/-- Does something with an open file. Where another copy does not open, the first stays open. -/
def perform (stream : Stream) : Action → Reader → Answer × Reader
  | .records polls, r => (.items (r.poll polls), r)
  | .count, r => (.count (.ok r.totalRecordCount), r)
  | .reopen options, r =>
    match ((withMetadata stream r.metadata options).on 0).1 with
    | .error e => (.reopened (.error e), r)
    | .ok r => (.reopened (.ok ()), r)

/-- What comes of one action after the other. -/
def answers (stream : Stream) : List Action → Reader → List Answer
  | [], _ => []
  | action :: actions, r =>
    let (answer, r) := r.perform stream action
    answer :: answers stream actions r

end Reader

/-- Opens a file and does one thing after the other with it. -/
def session (stream : Stream) (schema : Schema) (options : Options) (actions : List Action) :
    Except Error (List Answer) :=
  ((Reader.ofStream stream schema options).on 0).1.map (Reader.answers stream actions)

end ClientTable
