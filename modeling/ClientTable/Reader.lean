import ClientTable.Records

namespace ClientTable

/-- How a file is held. -/
structure Options where
  /-- Copy the rest of the stream when the file is opened. -/
  copyToMemory : Bool
  /-- Keep the texts that have been found. -/
  internStrings : Bool
  deriving DecidableEq, Repr

/-- The choices that cost nothing. -/
def Options.default : Options :=
  ⟨false, false⟩

/-- An open table file. -/
structure Reader where
  source : Source
  metadata : Metadata
  options : Options
  deriving DecidableEq, Repr

namespace Reader

/-- Opens the file that starts at the stream's position. -/
def ofStream (stream : Stream) (schema : Schema) (options : Options) : Reading Reader := do
  let source ← Source.ofStream stream options.copyToMemory
  return ⟨source, ← Metadata.read source schema, options⟩

/-- Opens a file for records of a type of the caller's. -/
def forType (α : Type) [FromRecord α] (stream : Stream) (options : Options) : Reading Reader :=
  ofStream stream (FromRecord.schema α) options

/-- Opens another copy of a file whose metadata is known. -/
def withMetadata (stream : Stream) (m : Metadata) (options : Options) : Reading Reader := do
  return ⟨← Source.ofStream stream options.copyToMemory, m, options⟩

def signature (r : Reader) : Signature :=
  r.metadata.signature

def recordCount (r : Reader) : Nat :=
  r.metadata.recordCount

/-- The number of records that the header and the copy tables declare together. -/
def totalRecordCount (r : Reader) : Nat :=
  r.recordCount + r.metadata.copyCount

def isEmpty (r : Reader) : Bool :=
  r.recordCount = 0

def records (r : Reader) : Reading Records :=
  Records.start r.source r.metadata r.options.internStrings

def typed (α : Type) [FromRecord α] (item : Item) : Except Error α :=
  item.bind FromRecord.fromRecord

end Reader

end ClientTable
