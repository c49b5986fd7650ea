import ClientTable.Quantity
import ClientTable.Bytes
import ClientTable.Bytes.Lemmas
import ClientTable.Text.Utf8
import ClientTable.Signature
import ClientTable.Segment
import ClientTable.Error
import ClientTable.Attempt
import ClientTable.Parse
import ClientTable.Header
import ClientTable.Header.Parser
import ClientTable.Layout
import ClientTable.Schema
import ClientTable.Float.Widen
import ClientTable.Value
import ClientTable.Record
import ClientTable.Bits
import ClientTable.Source
import ClientTable.Descriptor
import ClientTable.Descriptor.FieldInfo
import ClientTable.Descriptor.StorageInfo
import ClientTable.Descriptor.Build
import ClientTable.Lookup.Entries
import ClientTable.Lookup.StringTable
import ClientTable.Lookup.OffsetMap
import ClientTable.Lookup.IndexTable
import ClientTable.Lookup.CopyTable
import ClientTable.Lookup.RelationshipTable
import ClientTable.Lookup.PalletTable
import ClientTable.Lookup.CommonTable
import ClientTable.Mapping
import ClientTable.Row.Element
import ClientTable.Row.Values
import ClientTable.Metadata
import ClientTable.Section
import ClientTable.Records
import ClientTable.Reader
import ClientTable.Proofs.Attempt
import ClientTable.Proofs.Reading
import ClientTable.Proofs.Interning
import ClientTable.Proofs.Opening
import ClientTable.Proofs.Iteration
import ClientTable.Proofs.Placement
import ClientTable.Proofs.Truncation
import ClientTable.Proofs.Assignment
import ClientTable.Proofs.BitFields
import ClientTable.Proofs.ColumnElements
import ClientTable.Proofs.FixedRows
import ClientTable.Proofs.StoredFile
import ClientTable.Proofs.StoredRows
import ClientTable.Proofs.StoredTable
import ClientTable.Proofs.SectionedFile
import ClientTable.Proofs.SectionedTable
import ClientTable.Proofs.Holding
import ClientTable.Proofs.LocatedTable
import ClientTable.Proofs.SimpleTable
import ClientTable.Proofs.RecordKeys
import ClientTable.Proofs.RecordCount
import ClientTable.Proofs.Outcomes
import ClientTable.Proofs.IndexKeys
import ClientTable.Proofs.Projection
import ClientTable.Proofs.InsertedSection
import ClientTable.Proofs.InternalErrors
import ClientTable.Proofs.Laziness
import ClientTable.Proofs.Repetition
import ClientTable.Proofs.Sessions
import ClientTable.Proofs.ExactLayout
import ClientTable.Proofs.HeaderWords
import ClientTable.Proofs.PalletChunks
import ClientTable.Proofs.CommonBlocks
import ClientTable.Proofs.OffsetMaps
import ClientTable.Proofs.ContiguousRows
import ClientTable.Proofs.FixedReads
import ClientTable.Proofs.RowIsolation
import ClientTable.Proofs.CopyKeys
import ClientTable.Proofs.SlotPartition
import ClientTable.Proofs.TrailingColumns
import ClientTable.Proofs.ConsumedBits
import ClientTable.Proofs.ConsecutiveFields
import ClientTable.Proofs.RowElements
import ClientTable.Proofs.ForeignKeys
import ClientTable.Proofs.StringCells
import ClientTable.Proofs.NarrowColumns
import ClientTable.Proofs.SpelledBits
import ClientTable.Proofs.CursorRuns
import ClientTable.Proofs.TextLookups
import ClientTable.Proofs.DeclaredColumns
import ClientTable.Proofs.SharedIndices
import ClientTable.Proofs.ChunkSums
