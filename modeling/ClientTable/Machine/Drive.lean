import ClientTable.Machine.Checked
import ClientTable.Source

namespace ClientTable

/-- All bytes that a source can hand out, whatever stands before the file among them. -/
def Source.bytes : Source → Bytes
  | stream bytes _ => bytes
  | memory bytes => bytes

def Source.origin : Source → Nat
  | stream _ origin => origin
  | memory _ => 0

theorem Source.suffix_eq (s : Source) (start : Nat) :
    s.suffix start = s.bytes.drop (start + s.origin) := by
  cases s with
  | stream bytes origin =>
      show bytes.drop (origin + start) = bytes.drop (start + origin)
      rw [Nat.add_comm]
  | memory bytes => rfl

/-- A source that is being read. -/
structure Drive where
  source : Source
  /-- Where the next byte is read. -/
  position : Nat
  /-- How many bytes the stream has handed out. -/
  handedOut : Nat
  /-- The bytes of the last row. -/
  buffer : Bytes
  deriving DecidableEq, Repr

namespace Drive

/-- Takes over a stream, in which the file starts at the current position. -/
def ofStream (stream : Stream) (copyToMemory : Bool) : Except Error Drive := do
  if let some reason := stream.seekFault then throw (.notSeekable reason)
  if copyToMemory then
    let rest := stream.bytes.drop stream.position
    return ⟨.memory rest, 0, rest.length, []⟩
  else
    return ⟨.stream stream.bytes stream.position, stream.position, 0, []⟩

def seek (start : Nat) : Guarded Drive Unit := do
  let d ← get
  let position ← Checked.add positionLimit start d.source.origin
  set { d with position }

/-- Reads on for `length` bytes, as far as there are any. -/
def read (length : Nat) : Guarded Drive Bytes := do
  let d ← get
  let found := (d.source.bytes.drop d.position).take length
  set { d with
    position := d.position + found.length
    handedOut := d.handedOut + d.source.cost found.length }
  return found

def readBlock (start length : Nat) : Guarded Drive Bytes := do
  seek start
  let found ← read length
  if found.length < length then throw (.shortBlock length start found.length) else return found

def readSegment (segment : Segment) : Guarded Drive Bytes :=
  readBlock segment.start segment.length

/-- Replaces what is in the buffer by the `length` bytes at `start`. -/
def fillBuffer (start length : Nat) : Guarded Drive Unit := do
  seek start
  modify fun d => { d with buffer := [] }
  let found ← read length
  modify fun d => { d with buffer := d.buffer ++ found }
  let filled := (← get).buffer.length
  if filled < length then throw (.shortBlock length start filled)

def input (d : Drive) : Input :=
  ⟨d.source.bytes.drop d.position, d.position - d.source.origin⟩

def advance (input : Input) (d : Drive) : Drive :=
  { d with
    position := d.source.origin + input.position
    handedOut := d.handedOut + d.source.cost (input.position - d.input.position) }

def words {α : Type} (item : Guarded Input α) : Guarded Drive α :=
  item.focus Drive.input Drive.advance

end Drive

end ClientTable
