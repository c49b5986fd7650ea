import ClientTable.Descriptor.Build
import ClientTable.Header.Parser
import ClientTable.Layout
import ClientTable.Mapping

namespace ClientTable

/-- What is known about a file before its records are looked at. -/
structure Metadata where
  signature : Signature
  /-- A file without records has no header. -/
  header : Option Header
  layout : Layout
  descriptors : List Descriptor
  schema : Schema
  /-- How the schema is fed in each section. -/
  mappings : List Mapping
  deriving DecidableEq, Repr

namespace Metadata

def ofEmptyFile (signature : Signature) (schema : Schema) : Metadata :=
  ⟨signature, none, .empty, [], schema, []⟩

def sectionMapping (h : Header) (descriptors : List Descriptor) (schema : Schema)
    (s : SectionLayout) : Except Error Mapping :=
  Mapping.build schema descriptors h.indexColumn.toNat (s.find? .indexTable).isSome

def sectionMappings (h : Header) (layout : Layout) (descriptors : List Descriptor)
    (schema : Schema) : Except Error (List Mapping) :=
  layout.sections.mapM (sectionMapping h descriptors schema)

/-- The metadata of a file with the given header. -/
def readPopulated (source : Source) (h : Header) (schema : Schema) : Reading Metadata := do
  let layout ← Layout.plan h
  let descriptors ← Descriptor.readAll source h layout schema
  let mappings ← sectionMappings h layout descriptors schema
  return ⟨h.signature, some h, layout, descriptors, schema, mappings⟩

def parseStart : Parse (Signature × Option Header) := do
  let signature ← Signature.parse
  return (signature, ← Header.parse signature)

def read (source : Source) (schema : Schema) : Reading Metadata := do
  match ← source.parse parseStart with
  | (signature, none) => return ofEmptyFile signature schema
  | (_, some h) => readPopulated source h schema

def recordCount (m : Metadata) : Nat :=
  match m.header with
  | some h => h.recordCount.toNat
  | none => 0

def copyCount (m : Metadata) : Nat :=
  total (m.layout.sections.map fun s =>
    match s.find? .copyTable with
    | some segment => segment.length / 8
    | none => 0)

end Metadata

end ClientTable
