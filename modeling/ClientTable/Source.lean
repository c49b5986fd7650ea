import ClientTable.Parse
import ClientTable.Segment

/-!
Where the bytes of a file come from: a stream that can seek, in which the file starts at some
position, or a copy of the rest of such a stream in memory. Readings count the bytes that the stream
hands out.
-/

namespace ClientTable

/-- A computation that has a stream hand out bytes and counts them. -/
abbrev Reading := Attempt Nat

def Reading.handOut (count : Nat) : Reading Unit :=
  modify (· + count)

/-- A stream as its owner gives it away: its bytes, its position, and what it answers to a request
to seek if it cannot. -/
structure Stream where
  bytes : Bytes
  position : Nat
  seekFault : Option String
  deriving DecidableEq, Repr

/-- What a file is read from. Positions in the file count from its own first byte. -/
inductive Source where
  /-- A stream in which the file starts at position `origin`. -/
  | stream (bytes : Bytes) (origin : Nat)
  /-- A copy of the file. -/
  | memory (bytes : Bytes)
  deriving DecidableEq, Repr

namespace Source

/-- Takes over a stream, in which the file starts at the current position. A copy has the stream
hand out all of its rest. -/
def ofStream (stream : Stream) (copyToMemory : Bool) : Reading Source := do
  if let some reason := stream.seekFault then throw (.notSeekable reason)
  if copyToMemory then
    let rest := stream.bytes.drop stream.position
    Reading.handOut rest.length
    return memory rest
  else
    return Source.stream stream.bytes stream.position

def suffix (start : Nat) : Source → Bytes
  | stream bytes origin => bytes.drop (origin + start)
  | memory bytes => bytes.drop start

/-- How many of `count` bytes that are read the stream hands out. Those of a copy were handed out
when it was made. -/
def cost (count : Nat) : Source → Nat
  | stream _ _ => count
  | memory _ => 0

/-- The first `length` bytes at `start`, as far as there are any. -/
def found (s : Source) (start length : Nat) : Bytes :=
  (s.suffix start).take length

/-- The `length` bytes at `start`, which all have to be there. -/
def block (s : Source) (start length : Nat) : Except Error Bytes :=
  if (s.found start length).length < length then
    throw (.shortBlock length start (s.found start length).length)
  else return s.found start length

/-- Reads the `length` bytes at `start`. Where there are fewer, those that there are have been
handed out. -/
def readBlock (s : Source) (start length : Nat) : Reading Bytes := do
  Reading.handOut (s.cost (s.found start length).length)
  s.block start length

def readSegment (s : Source) (segment : Segment) : Reading Bytes :=
  s.readBlock segment.start segment.length

def parse {α : Type} (s : Source) (item : Parse α) : Reading α := do
  let (outcome, input) := item.on (Input.ofBytes (s.suffix 0))
  Reading.handOut (s.cost input.position)
  outcome

@[simp]
theorem on_readBlock (s : Source) (start length count : Nat) :
    (s.readBlock start length).on count =
      (s.block start length, count + s.cost (s.found start length).length) :=
  rfl

@[simp]
theorem on_parse {α : Type} (s : Source) (item : Parse α) (count : Nat) :
    (s.parse item).on count =
      ((item.on (.ofBytes (s.suffix 0))).1,
        count + s.cost (item.on (.ofBytes (s.suffix 0))).2.position) :=
  rfl

theorem block_eq_ok_iff {s : Source} {start length : Nat} {bytes : Bytes} :
    s.block start length = .ok bytes ↔ bytes.length = length ∧ bytes = s.found start length := by
  have hle : (s.found start length).length ≤ length := by
    rw [found, List.length_take]
    exact Nat.min_le_left ..
  unfold block
  split
  case isTrue h =>
    constructor
    · intro e
      cases e
    · rintro ⟨hlen, rfl⟩
      omega
  case isFalse h =>
    constructor
    · intro e
      cases e
      exact ⟨by omega, rfl⟩
    · rintro ⟨_, rfl⟩
      rfl

end Source

end ClientTable
