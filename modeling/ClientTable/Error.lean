import ClientTable.Segment
import ClientTable.Signature

namespace ClientTable

/-- Things whose declared number has to match the number found. -/
inductive Counted where
  | sectionRecords
  | offsetMapEntries
  | indexKeys
  deriving DecidableEq, Repr

def Counted.name : Counted → String
  | sectionRecords => "records across sections"
  | offsetMapEntries => "offset map entries"
  | indexKeys => "index table keys"

/-- Blocks that are made of entries of one size. -/
inductive Block where
  | offsetMap
  | indexTable
  | copyTable
  | relationshipTable
  | commonChunk
  deriving DecidableEq, Repr

def Block.name : Block → String
  | offsetMap => "offset map"
  | indexTable => "index table"
  | copyTable => "copy table"
  | relationshipTable => "relationship table"
  | commonChunk => "common data chunk"

/-- Contradictions inside a file, or between a file and the caller's schema. -/
inductive Fault where
  /-- A segment would end past the last 64-bit position. -/
  | segmentOverflow (kind : SegmentKind) (start length : Nat)
  | recordAreaReversed (stop start : Nat)
  | idRangeReversed (stop start : Nat)
  | fieldWidth (position : Nat) (bits : Int)
  | fieldOrder (field next position : Nat)
  /-- The record size in bits is past the last 32-bit number. -/
  | recordTooWide (size : Nat)
  | storageInfoSize (length : Nat)
  | unknownCompression (code : Nat)
  | zeroWidth (field : Nat)
  | chunkPastLimit (field : Nat)
  | fieldsExceedRecord (needed width : Nat)
  | indexColumnOutside (column fields : Nat)
  | indexColumnNotScalar (name : String)
  | elementsExhausted (name : String) (needed found : Nat)
  | bitCount (count : Nat)
  | bitRange (start stop available : Nat)
  | unalignedText (position : Nat)
  | unterminatedText
  | stringOutside (offset size : Nat)
  | unterminatedString (offset : Nat)
  | stringOffsetOverflow (stored : Nat)
  | stringBeforeBlock (position start : Nat)
  | stringOffsetRange (offset : Nat)
  | palletOutside (index chunk size : Nat)
  | palletIndexOverflow (index : Nat)
  | rowOutside (offset length start stop : Nat)
  | commonValueType (code column : Nat)
  | commonChunkOutside (column start stop size : Nat)
  | missingRecords (index : Nat)
  | missingOffsetMap (index : Nat)
  | missingMapping (index : Nat)
  | missingKey (row : Nat)
  | missingDescriptor (index : Nat)
  | missingValue
  /-- The caller's own record type refuses a record. -/
  | refused (reason : String)
  deriving DecidableEq, Repr

def Fault.message : Fault → String
  | segmentOverflow kind start length =>
    s!"{kind.name} segment at {start} with length {length} overflows"
  | recordAreaReversed stop start =>
    s!"variable-length record area ends at {stop} before it starts at {start}"
  | idRangeReversed stop start => s!"id range ends at {stop} before it starts at {start}"
  | fieldWidth position bits =>
    s!"Field at byte {position} declares an invalid width of {bits} bits"
  | fieldOrder field next position =>
    s!"Field {field} at byte {next} follows field at byte {position}"
  | recordTooWide size => s!"Record size {size} is too large to address in bits"
  | storageInfoSize length => s!"Field storage info size {length} is not a multiple of 24"
  | unknownCompression code => s!"Unknown field compression type: {code}"
  | zeroWidth field => s!"Field {field} has zero width"
  | chunkPastLimit field => s!"Auxiliary data of field {field} ends past 4 GiB"
  | fieldsExceedRecord needed width =>
    s!"Fields need {needed} bits but records are {width} bits wide"
  | indexColumnOutside column fields =>
    s!"Index column {column} is outside the record shape ({fields} fields)"
  | indexColumnNotScalar name =>
    s!"Field '{name}' receives index table keys but is not an integer scalar"
  | elementsExhausted name needed found =>
    s!"Field '{name}' needs {needed} elements but the file stores only {found} more"
  | bitCount count => s!"Invalid bit count: {count}"
  | bitRange start stop available =>
    s!"Bit range {start}..{stop} overruns the record ({available} bits)"
  | unalignedText position => s!"Inline string read at unaligned bit offset {position}"
  | unterminatedText => "Missing null terminator in inline string"
  | stringOutside offset size =>
    s!"String offset {offset} is outside the string block ({size} bytes)"
  | unterminatedString offset => s!"Missing null terminator for string at {offset}"
  | stringOffsetOverflow stored => s!"String offset {stored} overflows"
  | stringBeforeBlock position start =>
    s!"String at {position} precedes the string block at {start}"
  | stringOffsetRange offset => s!"String offset {offset} is out of range"
  | palletOutside index chunk size =>
    s!"Pallet index {index} (chunk at {chunk}) is outside the pallet block ({size} bytes)"
  | palletIndexOverflow index => s!"Pallet array index {index} overflows"
  | rowOutside offset length start stop =>
    s!"Offset map entry {offset}+{length} lies outside the record area {start}..{stop}"
  | commonValueType code column => s!"Unknown common value type {code} for column {column}"
  | commonChunkOutside column start stop size =>
    s!"Common data for field {column} ({start}..{stop}) exceeds the block ({size} bytes)"
  | missingRecords index => s!"Section {index} has no record area"
  | missingOffsetMap index => s!"Section {index} declares variable records without an offset map"
  | missingMapping index => s!"No field mapping for section {index}"
  | missingKey row => s!"Index table has no key for record {row}"
  | missingDescriptor index => s!"No field descriptor at index {index}"
  | missingValue => "Field decoded without a value"
  | refused reason => reason

/-- Requests that a file of the given kind has no answer to. -/
inductive Unsupported where
  | layoutOfClientVersion
  | fieldsOfClientVersion
  | stringFromBits
  | palletWithoutBlock
  | commonInBody
  | notCommon
  | keyNotInline
  | keyWithoutIndexTable
  | keyNotInteger
  | noKeyField
  deriving DecidableEq, Repr

def Unsupported.message : Unsupported → String
  | layoutOfClientVersion => "no layout exists for metadata-dependent versions"
  | fieldsOfClientVersion => "no field metadata exists for metadata-dependent versions"
  | stringFromBits => "string values cannot be built from raw bits"
  | palletWithoutBlock => "pallet value requested from a file without pallet data"
  | commonInBody => "common data is resolved by record key, not read from the record body"
  | notCommon => "field is not stored in the common block"
  | keyNotInline => "record keys must be stored inline"
  | keyWithoutIndexTable => "index table value requested without an index table"
  | keyNotInteger => "key field must be an integer scalar"
  | noKeyField => "record has no key field"

/-- Why reading a table file failed. -/
inductive Error where
  /-- The bytes ended inside a word. -/
  | endOfInput
  /-- The bytes ended inside a block of `length` bytes at `start`. -/
  | shortBlock (length start found : Nat)
  | unknownSignature (magic : Bytes)
  | needsClientMetadata (signature : Signature)
  | invalid (fault : Fault)
  | countMismatch (counted : Counted) (expected found : Nat)
  | sizeMismatch (block : Block) (expected found : Nat)
  | notSeekable (reason : String)
  | unsupported (request : Unsupported)
  deriving DecidableEq, Repr

namespace Error

/-- Whether the error says that the file itself is malformed. -/
def isMalformedFile : Error → Bool
  | invalid _ | countMismatch .. | sizeMismatch .. => true
  | _ => false

/-- A digit, a capital letter or a small letter of ASCII. -/
def isAlphanumeric (b : UInt8) : Bool :=
  (0x30 ≤ b && b ≤ 0x39) || (0x41 ≤ b && b ≤ 0x5A) || (0x61 ≤ b && b ≤ 0x7A)

/-- Four signature bytes as text where they are all letters and digits, else as one hexadecimal
number. -/
def shownMagic (magic : Bytes) : String :=
  if magic.all isAlphanumeric then String.ofList (magic.map fun b => Char.ofNat b.toNat)
  else
    let digits := Nat.toDigits 16 (littleEndian magic)
    "0x" ++ String.ofList (List.replicate (8 - digits.length) '0' ++ digits.map Char.toUpper)

def message : Error → String
  | endOfInput =>
    "I/O error: Error \x7b kind: UnexpectedEof, message: \"failed to fill whole buffer\" \x7d"
  | shortBlock length start found =>
    "I/O error: Custom \x7b kind: UnexpectedEof, error: \"expected "
      ++ s!"{length} bytes at {start}, found {found}" ++ "\" \x7d"
  | unknownSignature magic =>
    s!"Unsupported file version {shownMagic magic}: unknown signature"
  | needsClientMetadata signature =>
    s!"Unsupported file version {signature.name}: "
      ++ "files of this version cannot be read without client metadata"
  | invalid fault => s!"Invalid format: {fault.message}"
  | countMismatch counted expected found =>
    s!"Count mismatch for {counted.name}: expected {expected}, but found {found}"
  | sizeMismatch block expected found =>
    s!"Size mismatch for {block.name}: expected {expected} bytes, but found {found} bytes"
  | notSeekable reason =>
    s!"Precondition violated: byte source must support seeking: {reason}"
  | unsupported request => s!"Unsupported operation: {request.message}"

end Error

end ClientTable
