import ClientTable.Proofs.Bounds
import ClientTable.Proofs.Columns
import ClientTable.Proofs.InternalErrors

namespace ClientTable

open Attempt Parse

namespace KeyedWord

/-- The word of the last entry with a key. -/
def last? (entries : List KeyedWord) (key : UInt32) : Option UInt32 :=
  ((entries.filter fun e => e.key = key).getLast?).map word

theorem lookup?_eq_last? (entries : List KeyedWord) (key : UInt32) :
    lookup? entries key = last? entries key := by
  simp [lookup?, last?, List.getLast?_eq_head?_reverse, ← List.filter_reverse]

end KeyedWord

/-- The run of one column of a WDB6 file: what type its values have, and the values. -/
structure CommonRun where
  type : UInt8
  values : List KeyedWord
  deriving DecidableEq, Repr

namespace CommonRun

/-- The number of values and their type stand in front of the values. -/
def bytes (run : CommonRun) : Bytes :=
  wordBytes (UInt32.ofNat run.values.length) ++
    ([run.type] ++ run.values.flatMap KeyedWord.bytes)

theorem bytes_ne_nil (run : CommonRun) : run.bytes ≠ [] := by
  intro hnil
  have hlength := congrArg List.length hnil
  simp [bytes] at hlength

/-- There is such a type, and the values can be counted. -/
structure Valid (run : CommonRun) : Prop where
  type : run.type ≤ 4
  count : run.values.length < wordLimit

theorem Valid.reads_parseColumn {run : CommonRun} (h : run.Valid) (column start : Nat) :
    Reads (CommonTable.parseColumn column) start run.bytes ⟨column, run.values⟩ := by
  have htype : ¬ 4 < run.type := UInt8.not_lt.mpr h.type
  refine (reads_u32 _ _).bind ((reads_u8 _ _).bind ?_)
  rw [if_neg htype, toNat_ofNat_of_lt h.count]
  exact (reads_many KeyedWord.reads_parse _ run.values).bind_pure _

theorem reads_parseColumns {runs : List CommonRun} (h : ∀ run ∈ runs, run.Valid)
    (column start : Nat) :
    Reads (CommonTable.parseColumns column runs.length) start (runs.flatMap bytes)
      (CommonTable.numbered column (runs.map fun run => some run.values)) := by
  induction runs generalizing column start with
  | nil => exact reads_pure start []
  | cons run runs ih =>
      obtain ⟨hfirst, hrest⟩ := List.forall_mem_cons.mp h
      exact (hfirst.reads_parseColumn column start).bind ((ih hrest _ _).bind_pure _)

end CommonRun

/-- What a file with storage info says about a field, and the values that it has for the field where
these are common data. -/
structure StoredEntry where
  info : StorageInfo
  values : List KeyedWord
  deriving DecidableEq, Repr

namespace StoredEntry

def common? (e : StoredEntry) : Option (List KeyedWord) :=
  if e.info.code = 2 then some e.values else none

def bytes (e : StoredEntry) : Bytes :=
  (e.common?.getD []).flatMap KeyedWord.bytes

/-- The entry of a common-data field has the length of its chunk. -/
def Valid (e : StoredEntry) : Prop :=
  e.info.code = 2 → e.info.chunkSize.toNat = e.values.length * KeyedWord.entrySize

instance : DecidablePred Valid :=
  fun e => inferInstanceAs (Decidable (e.info.code = 2 → _))

theorem bytes_of_common? {e : StoredEntry} {values : List KeyedWord}
    (h : e.common? = some values) : e.bytes = values.flatMap KeyedWord.bytes := by
  rw [bytes, h]
  rfl

end StoredEntry

theorem Compression.eq_common_iff {code : UInt32} {compression : Compression}
    (h : ofCode code = .ok compression) : compression = common ↔ code = 2 := by
  have hcode : code = 2 ↔ code.toNat = 2 := UInt32.toNat_inj.symm
  rw [hcode]
  unfold ofCode at h
  split at h <;> cases h <;> simp [*]

/-- A chunk of the common block starts where the one before it has ended. -/
theorem StorageInfo.common_of_descriptor {info : StorageInfo} {index : Nat}
    {field? : Option FieldInfo} {offsets after : ChunkOffsets} {d : Descriptor}
    (h : info.descriptor index field? offsets = .ok (d, after)) :
    info.code = 2 ∧ d.storage = .common info.first ⟨offsets.common, info.chunkSize.toNat⟩ ∧
        after.common = offsets.common + info.chunkSize.toNat ∨
      info.code ≠ 2 ∧ d.isCommon = false ∧ after.common = offsets.common := by
  obtain ⟨compression, hcode, h⟩ := bind_eq_ok.mp h
  have hcommon := Compression.eq_common_iff hcode
  cases compression with
  | common =>
      obtain ⟨chunk, hchunk, h⟩ := bind_eq_ok.mp h
      cases h
      unfold chunkAt at hchunk
      split at hchunk <;> cases hchunk
      exact Or.inl ⟨hcommon.mp rfl, rfl, rfl⟩
  | immediate =>
      cases h
      exact Or.inr ⟨mt hcommon.mpr nofun, rfl, rfl⟩
  | plain | pallet | palletArray =>
      obtain ⟨_, -, h⟩ := bind_eq_ok.mp h
      cases h
      exact Or.inr ⟨mt hcommon.mpr nofun, rfl, rfl⟩

namespace StoredEntry

/-- The descriptor of an entry, and where the chunk of the next one starts. -/
theorem of_descriptor {e : StoredEntry} (hvalid : e.Valid) {index : Nat}
    {field? : Option FieldInfo} {offsets after : ChunkOffsets} {d : Descriptor}
    (h : e.info.descriptor index field? offsets = .ok (d, after)) :
    d.isCommon = e.common?.isSome ∧
      (e.common?.isSome → d.chunk = ⟨offsets.common, e.bytes.length⟩) ∧
      after.common = offsets.common + e.bytes.length := by
  rcases StorageInfo.common_of_descriptor h with ⟨hcode, hstorage, hafter⟩ | ⟨hcode, hplain, hafter⟩
  · have hcommon : e.common? = some e.values := if_pos hcode
    have hsize : e.info.chunkSize.toNat = e.bytes.length := by
      rw [hvalid hcode, bytes_of_common? hcommon,
        length_flatMap_of_length KeyedWord.length_bytes]
    rw [hsize] at hstorage hafter
    refine ⟨?_, fun _ => ?_, hafter⟩
    · rw [Descriptor.isCommon, hstorage, hcommon]
      rfl
    · rw [Descriptor.chunk, hstorage]
  · have hnone : e.common? = none := if_neg hcode
    have hempty : e.bytes = [] := by
      rw [bytes, hnone]
      rfl
    rw [hnone, hempty]
    exact ⟨hplain, fun hsome => absurd hsome Bool.false_ne_true, hafter⟩

variable {fields : List FieldInfo} {index : Nat} {offsets : ChunkOffsets}
  {entries : List StoredEntry} {descriptors : List Descriptor}

theorem map_isCommon_descriptors (hvalid : ∀ e ∈ entries, e.Valid)
    (h : StorageInfo.descriptors fields index offsets (entries.map info) = .ok descriptors) :
    descriptors.map Descriptor.isCommon = (entries.map common?).map Option.isSome := by
  induction entries generalizing index offsets descriptors with
  | nil =>
      cases h
      rfl
  | cons e entries ih =>
      obtain ⟨hfits, hvalid⟩ := List.forall_mem_cons.mp hvalid
      obtain ⟨⟨first, after⟩, hfirst, h⟩ := bind_eq_ok.mp h
      obtain ⟨rest, hrest, h⟩ := bind_eq_ok.mp h
      cases h
      simp only [List.map_cons, ih hvalid hrest, (of_descriptor hfits hfirst).1]

/-- The chunks of a block are read as the values that the entries have. -/
theorem columnsOfChunks_descriptors (hvalid : ∀ e ∈ entries, e.Valid)
    (h : StorageInfo.descriptors fields index offsets (entries.map info) = .ok descriptors)
    {others : List Descriptor} (hothers : ∀ d ∈ others, d.isCommon = false) {block : Bytes}
    (hstart : offsets.common ≤ block.length)
    (hblock : block.drop offsets.common = entries.flatMap bytes) (column : Nat) :
    CommonTable.columnsOfChunks block column (descriptors ++ others) =
      .ok (CommonTable.numbered column (entries.map common?)) := by
  -- `offsets.common` is where the block still has the bytes of all entries that are left.
  induction entries generalizing index offsets descriptors column with
  | nil =>
      cases h
      exact CommonTable.columnsOfChunks_of_not_common block column hothers
  | cons e entries ih =>
      obtain ⟨hfits, hvalid⟩ := List.forall_mem_cons.mp hvalid
      obtain ⟨⟨first, after⟩, hfirst, h⟩ := bind_eq_ok.mp h
      obtain ⟨rest, hrest, h⟩ := bind_eq_ok.mp h
      cases h
      obtain ⟨hcommon, hchunk, hafter⟩ := of_descriptor hfits hfirst
      rw [List.flatMap_cons] at hblock
      have hlength := congrArg List.length hblock
      rw [List.length_drop, List.length_append] at hlength
      have hbehind : block.drop after.common = entries.flatMap bytes := by
        rw [hafter, ← List.drop_drop, hblock, List.drop_left]
      have hread := ih hvalid hrest (by omega) hbehind (column + 1)
      rw [List.cons_append, CommonTable.columnsOfChunks, hcommon, List.map_cons]
      cases hown : e.common? with
      | none => exact hread
      | some values =>
          rw [hown] at hchunk
          have hbytes := bytes_of_common? hown
          rw [hbytes] at hblock hchunk
          have hcolumn := Column.columnOfChunk_eq column hstart hblock
          rw [Option.isSome_some, if_pos rfl, hchunk rfl, hcolumn]
          change (CommonTable.columnsOfChunks block (column + 1) (rest ++ others) >>= _) = _
          rw [hread]
          rfl

end StoredEntry

namespace Layout

theorem mem_flaggedRequests_fieldInfo {h : Header} {extent : Extent} :
    (SegmentKind.fieldInfo, extent) ∈ flaggedRequests h ↔
      extent = .bytes (h.fieldCount.toNat * 4) := by
  unfold flaggedRequests recordArea stringsOrOffsets sized words
  split <;> split <;> split <;> split <;> simp

/-- A WDB6 file has a field info entry for each field of its records. -/
theorem length_fieldInfo_of_plan {h : Header} (hsignature : h.signature = .wdb6)
    {layout : Layout} (hplan : plan h = .ok layout) :
    ((layout.findShared? .fieldInfo).map Segment.length).getD 0 = h.fieldCount.toNat * 4 := by
  unfold plan at hplan
  rw [hsignature] at hplan
  obtain ⟨segments, hplace, hlayout⟩ := bind_eq_ok.mp hplan
  cases hlayout
  have hfind : (ofChain h segments).findShared? .fieldInfo = Segment.find? .fieldInfo segments :=
    Segment.find?_filter SegmentKind.isShared rfl segments
  rw [hfind]
  cases hfound : Segment.find? .fieldInfo segments with
  | none =>
      -- The segment has been planned all the same, but it has no bytes.
      obtain ⟨s, hs, hkind, hlength⟩ :=
        exists_of_place hplace (mem_flaggedRequests_fieldInfo.mpr rfl)
      have habsent := List.find?_eq_none.mp hfound s hs
      have hlength : h.fieldCount.toNat * 4 = s.length := Except.ok.inj hlength
      simp only [hkind, Segment.isPresent, decide_true, Bool.true_and, decide_eq_true_eq] at habsent
      show 0 = _
      omega
  | some s =>
      have hkind : s.kind = .fieldInfo := by
        have hs := List.find?_some hfound
        simp only [Bool.and_eq_true, decide_eq_true_eq] at hs
        exact hs.1
      obtain ⟨-, extent, hrequest, hlength⟩ :=
        mem_place hplace s (List.mem_of_find?_eq_some hfound)
      rw [hkind] at hrequest
      obtain rfl := mem_flaggedRequests_fieldInfo.mp hrequest
      exact (Except.ok.inj hlength).symm

end Layout

theorem FieldInfo.map_isCommon_descriptors {h : Header} {index : Nat} {infos : List FieldInfo}
    {columns : List Descriptor} (hcolumns : FieldInfo.descriptors h index infos = .ok columns) :
    columns.map Descriptor.isCommon = List.replicate infos.length false := by
  obtain ⟨hlength, hplain⟩ := plain_of_descriptors hcolumns
  have hnone : ∀ d ∈ columns, d.isCommon = false := by
    intro d hd
    rw [Descriptor.isCommon, hplain d hd]
  rw [← hlength]
  exact List.map_eq_replicate_iff.mpr hnone

namespace Descriptor

theorem ensures_length_readFieldInfos (source : Source) {h : Header}
    (hsignature : h.signature = .wdb6) {layout : Layout} (hplan : Layout.plan h = .ok layout) :
    Ensures (readFieldInfos source layout) fun infos => infos.length = h.fieldCount.toNat := by
  have hlength := Layout.length_fieldInfo_of_plan hsignature hplan
  unfold readFieldInfos
  cases hfound : layout.findShared? .fieldInfo with
  | none =>
      rw [hfound] at hlength
      apply ensures_pure
      have hzero : 0 = h.fieldCount.toNat * 4 := hlength
      simp only [List.length_nil]
      omega
  | some segment =>
      rw [hfound] at hlength
      have hentries : segment.length = h.fieldCount.toNat * 4 := hlength
      refine ensures_bind fun block => ensures_lift fun infos hinfos => ?_
      rw [length_of_decode_many hinfos]
      omega

theorem map_isCommon_commonColumns {h : Header} {columns : List Descriptor}
    (hcolumns : commonColumns h = .ok columns) :
    columns.map isCommon =
      List.replicate (h.totalFieldCount.toNat - h.fieldCount.toNat) true := by
  obtain ⟨offset, -, hcolumns⟩ := bind_eq_ok.mp hcolumns
  cases hcolumns
  exact List.map_replicate

theorem Completes.exists_append {h : Header} {columns descriptors : List Descriptor}
    (hcompletes : Completes h columns descriptors) :
    ∃ others, (∀ d ∈ others, d.isCommon = false) ∧ descriptors = columns ++ others := by
  cases hcompletes with
  | columns => exact ⟨[], nofun, (List.append_nil columns).symm⟩
  | @related last hlast =>
      obtain ⟨offset, -, hlast⟩ := bind_eq_ok.mp hlast
      cases hlast
      exact ⟨[_], List.forall_mem_singleton.mpr rfl, rfl⟩

end Descriptor

/-- What is stored in the common block of a file: a run for each column behind the fields of the
records, or a chunk for each common-data entry. -/
inductive CommonData where
  | ofRuns (runs : List CommonRun)
  | ofEntries (entries : List StoredEntry)

namespace CommonData

def bytes : CommonData → Bytes
  | ofRuns runs => runs.flatMap CommonRun.bytes
  | ofEntries entries => entries.flatMap StoredEntry.bytes

/-- The values that the columns of the file have in the block, if they have a place there. -/
def columns (h : Header) : CommonData → List (Option (List KeyedWord))
  | ofRuns runs => List.replicate h.fieldCount.toNat none ++ runs.map fun run => some run.values
  | ofEntries entries => entries.map StoredEntry.common?

/-- The value under a key in the column at a position: that of the last entry with the key. -/
def value? (h : Header) (data : CommonData) (column : Nat) (key : UInt32) : Option UInt32 :=
  (data.columns h)[column]?.join.bind fun values => KeyedWord.last? values key

/-- The data is such as the header and the storage info of the file say. -/
def Describes (source : Source) (h : Header) (layout : Layout) : CommonData → Prop
  | ofRuns runs =>
    h.signature = .wdb6 ∧ h.fieldCount.toNat + runs.length = h.totalFieldCount.toNat ∧
      ∀ run ∈ runs, run.Valid
  | ofEntries entries =>
    h.signature.hasStorageInfo = true ∧ (∀ e ∈ entries, e.Valid) ∧
      source.Finds (layout.findShared? .fieldStorageInfo)
        ((entries.map StoredEntry.info).flatMap StorageInfo.bytes)

/-- The descriptors are those of the columns of the data. -/
def Builds (h : Header) (descriptors : List Descriptor) : CommonData → Prop
  | ofRuns runs =>
    descriptors.map Descriptor.isCommon = ((ofRuns runs).columns h).map Option.isSome
  | ofEntries entries =>
    ∃ fields, StorageInfo.descriptors fields 0 ⟨0, 0⟩ (entries.map StoredEntry.info) =
      .ok descriptors

variable {source : Source} {h : Header} {layout : Layout} {data : CommonData}
  {descriptors columns : List Descriptor}

theorem map_isSome_columns_ofRuns (runs : List CommonRun) :
    ((ofRuns runs).columns h).map Option.isSome =
      List.replicate h.fieldCount.toNat false ++ List.replicate runs.length true := by
  have hruns : runs.map (Option.isSome ∘ fun run => some run.values) =
      List.replicate runs.length true := List.map_const' ..
  simp [CommonData.columns, hruns]

theorem ensures_readColumns (hdata : data.Describes source h layout)
    (hplan : Layout.plan h = .ok layout) (schema : Schema) :
    Ensures (Descriptor.readColumns source h layout schema) fun columns =>
      data.Builds h columns := by
  unfold Descriptor.readColumns
  cases data with
  | ofRuns runs =>
      obtain ⟨hsignature, hcount, -⟩ := hdata
      rw [hsignature]
      refine (Descriptor.ensures_length_readFieldInfos source hsignature hplan).bind
        fun infos hinfos => ?_
      refine Ensures.bind (Q := fun fields => FieldInfo.descriptors h 0 infos = .ok fields)
        (ensures_lift fun _ => id) fun fields hfields => ?_
      refine Ensures.bind (Q := fun common => Descriptor.commonColumns h = .ok common)
        (ensures_lift fun _ => id) fun common hcommon => ensures_pure ?_
      have hruns : h.totalFieldCount.toNat - h.fieldCount.toNat = runs.length := by omega
      rw [Builds, map_isSome_columns_ofRuns, List.map_append,
        FieldInfo.map_isCommon_descriptors hfields, hinfos,
        Descriptor.map_isCommon_commonColumns hcommon, hruns]
  | ofEntries entries =>
      obtain ⟨hstorage, -, hfinds⟩ := hdata
      have hinfos := (Descriptor.gives_readStorageInfos hfinds).ensures
      cases hsignature : h.signature with
      | wdc1 | wdc2 =>
          refine ensures_bind fun fields => hinfos.bind fun infos heq => ensures_lift ?_
          intro columns hcolumns
          rw [heq] at hcolumns
          exact ⟨fields, hcolumns⟩
      | _ =>
          rw [hsignature] at hstorage
          cases hstorage

theorem Builds.map_isCommon (hbuilds : data.Builds h columns)
    (hdata : data.Describes source h layout) :
    columns.map Descriptor.isCommon = (data.columns h).map Option.isSome := by
  cases data with
  | ofRuns runs => exact hbuilds
  | ofEntries entries =>
      obtain ⟨fields, hdescriptors⟩ := hbuilds
      exact StoredEntry.map_isCommon_descriptors hdata.2.1 hdescriptors

theorem numbered_replicate_none (index count : Nat) (columns : List (Option (List KeyedWord))) :
    CommonTable.numbered index (List.replicate count none ++ columns) =
      CommonTable.numbered (index + count) columns := by
  induction count generalizing index with
  | zero => rfl
  | succ count ih =>
      have hindex : index + (count + 1) = index + 1 + count := by omega
      rw [List.replicate_succ, List.cons_append, CommonTable.numbered, ih, hindex]

/-- The block of the data is read as its columns. -/
theorem Builds.gives_read (hbuilds : data.Builds h columns)
    (hdata : data.Describes source h layout) {others : List Descriptor}
    (hothers : ∀ d ∈ others, d.isCommon = false) {segment : Segment}
    (hlength : segment.length = data.bytes.length)
    (hholds : source.Holds segment.start data.bytes) :
    Gives (fun _ => True) (CommonTable.read source segment h (columns ++ others))
      ⟨CommonTable.numbered 0 (data.columns h)⟩ := by
  unfold CommonTable.read
  refine (hholds.gives_readSegment hlength).bind ?_
  cases data with
  | ofRuns runs =>
      obtain ⟨hsignature, hcount, hvalid⟩ := hdata
      have hruns : h.totalFieldCount.toNat - h.fieldCount.toNat = runs.length := by omega
      have hread := (CommonRun.reads_parseColumns hvalid h.fieldCount.toNat 0).decode
      rw [if_pos hsignature]
      dsimp only
      rw [hruns]
      refine (gives_lift hread).bind ?_
      rw [CommonData.columns, numbered_replicate_none, Nat.zero_add]
      exact gives_pure _
  | ofEntries entries =>
      obtain ⟨hstorage, hvalid, -⟩ := hdata
      obtain ⟨fields, hdescriptors⟩ := hbuilds
      have hread := StoredEntry.columnsOfChunks_descriptors hvalid hdescriptors hothers
        (Nat.zero_le _) (List.drop_zero (l := entries.flatMap StoredEntry.bytes)) 0
      rw [if_neg (Signature.ne_wdb6 hstorage)]
      exact (gives_lift hread).bind (gives_pure _)

def IsIn (h : Header) (data : CommonData) (common : Option CommonTable) : Prop :=
  ∀ column key, (common.bind fun table => table.value? column key) = data.value? h column key

theorem isIn_numbered (h : Header) (data : CommonData) :
    data.IsIn h (some ⟨CommonTable.numbered 0 (data.columns h)⟩) := by
  intro column key
  have hvalue := CommonTable.value?_numbered 0 column (data.columns h) key
  rw [Nat.zero_add] at hvalue
  simp only [Option.bind_some, hvalue, KeyedWord.lookup?_eq_last?, value?]

theorem eq_nil_of_mem_columns (hempty : data.bytes = []) {values : List KeyedWord}
    (hmem : some values ∈ data.columns h) : values = [] := by
  cases data with
  | ofRuns runs =>
      have hbytes := List.flatMap_eq_nil_iff.mp hempty
      rcases List.mem_append.mp hmem with hfield | hrun
      · cases List.eq_of_mem_replicate hfield
      · obtain ⟨run, hrun, -⟩ := List.mem_map.mp hrun
        exact absurd (hbytes run hrun) run.bytes_ne_nil
  | ofEntries entries =>
      have hbytes := List.flatMap_eq_nil_iff.mp hempty
      obtain ⟨e, he, hcommon⟩ := List.mem_map.mp hmem
      have hnone := hbytes e he
      rw [StoredEntry.bytes_of_common? hcommon] at hnone
      exact eq_nil_of_flatMap (by decide) KeyedWord.length_bytes hnone

theorem isIn_none (hempty : data.bytes = []) : data.IsIn h none := by
  intro column key
  show none = _
  rw [value?]
  cases hown : (data.columns h)[column]?.join with
  | none => rfl
  | some values =>
      have hmem : some values ∈ data.columns h :=
        List.mem_of_getElem? (Option.join_eq_some_iff.mp hown)
      rw [eq_nil_of_mem_columns hempty hmem]
      rfl

end CommonData

/-- The chunk lies in a block of so many bytes and is made of whole entries. -/
def Chunk.Fits (length : Nat) (chunk : Chunk) : Prop :=
  chunk.stop ≤ length ∧ KeyedWord.entrySize ∣ chunk.size

namespace CommonTable

variable {block : Bytes} {column : Nat}

theorem throwsOnly_columnOfChunk_malformed (block : Bytes) (column : Nat) (chunk : Chunk) :
    ThrowsOnly (fun e => e.isMalformedFile = true) (columnOfChunk block column chunk) := by
  unfold columnOfChunk
  split
  case isTrue => exact throwsOnly_error rfl
  case isFalse hinside =>
    have hcount : ThrowsOnly (fun e => e.isMalformedFile = true)
        (Block.commonChunk.entryCount chunk.size KeyedWord.entrySize) := by
      unfold Block.entryCount
      split
      · exact throwsOnly_error rfl
      · exact throwsOnly_ok _
    refine hcount.bind fun count hsize => ?_
    -- A chunk of whole entries is never too short to be read.
    have hlength : count * KeyedWord.entrySize ≤
        ((block.drop chunk.start).take chunk.size).length := by
      rw [Chunk.length_take_drop hinside]
      exact Block.mul_le_of_entryCount hsize
    obtain ⟨values, -, hread⟩ := Machine.mapM_pieces Machine.exists_keyedWord hlength 0
    have hdecode : decode (many KeyedWord.parse count)
        ((block.drop chunk.start).take chunk.size) = .ok values := hread
    dsimp only
    rw [hdecode]
    exact throwsOnly_ok _

theorem fits_of_columnOfChunk {chunk : Chunk} {c : CommonColumn}
    (h : columnOfChunk block column chunk = .ok c) : chunk.Fits block.length := by
  unfold columnOfChunk at h
  split at h
  case isTrue => cases h
  case isFalse hinside =>
    obtain ⟨count, hcount, -⟩ := bind_eq_ok.mp h
    unfold Block.entryCount at hcount
    split at hcount
    case isTrue => cases hcount
    case isFalse hwhole => exact ⟨Nat.not_lt.mp hinside, Nat.dvd_of_mod_eq_zero (not_not.mp hwhole)⟩

theorem throwsOnly_columnsOfChunks_malformed (block : Bytes) (column : Nat)
    (descriptors : List Descriptor) :
    ThrowsOnly (fun e => e.isMalformedFile = true) (columnsOfChunks block column descriptors) := by
  induction descriptors generalizing column with
  | nil => exact throwsOnly_ok []
  | cons d descriptors ih =>
      unfold columnsOfChunks
      split
      · exact (throwsOnly_columnOfChunk_malformed block column d.chunk).bind fun first _ =>
          (ih (column + 1)).bind fun others _ => throwsOnly_ok _
      · exact ih (column + 1)

theorem fits_of_columnsOfChunks {descriptors : List Descriptor} {columns : List CommonColumn}
    (h : columnsOfChunks block column descriptors = .ok columns) :
    ∀ d ∈ descriptors, d.isCommon = true → d.chunk.Fits block.length := by
  induction descriptors generalizing column columns with
  | nil => exact nofun
  | cons d descriptors ih =>
      rw [columnsOfChunks] at h
      intro e he hcommon
      split at h
      case isTrue =>
        obtain ⟨first, hfirst, h⟩ := bind_eq_ok.mp h
        obtain ⟨others, hothers, -⟩ := bind_eq_ok.mp h
        rcases List.mem_cons.mp he with rfl | he
        · exact fits_of_columnOfChunk hfirst
        · exact ih hothers e he hcommon
      case isFalse hplain =>
        rcases List.mem_cons.mp he with rfl | he
        · exact absurd hcommon hplain
        · exact ih h e he hcommon

theorem on_read_of_not_fits {source : Source} {segment : Segment} {h : Header}
    (hstorage : h.signature.hasStorageInfo = true) (hlength : segment.length = block.length)
    (hholds : source.Holds segment.start block) {descriptors : List Descriptor} {d : Descriptor}
    (hd : d ∈ descriptors) (hcommon : d.isCommon = true) (hfits : ¬d.chunk.Fits block.length)
    (count : Nat) :
    ∃ e, ((read source segment h descriptors).on count).1 = .error e ∧
      e.isMalformedFile = true := by
  obtain ⟨hread, -⟩ := hholds.gives_readSegment hlength count trivial
  have hblock : (source.readSegment segment).on count =
      (.ok block, ((source.readSegment segment).on count).2) := Prod.ext hread rfl
  rw [read, on_bind_of_ok hblock, if_neg (Signature.ne_wdb6 hstorage)]
  cases hcolumns : columnsOfChunks block 0 descriptors with
  | ok columns => exact (hfits (fits_of_columnsOfChunks hcolumns d hd hcommon)).elim
  | error e => exact ⟨e, rfl, throwsOnly_columnsOfChunks_malformed block 0 descriptors e hcolumns⟩

end CommonTable

namespace CommonData

/-- The descriptors of a file stand for the columns of its common data, and the data is found under
their positions wherever the block is. -/
structure IsFound (source : Source) (h : Header) (layout : Layout) (descriptors : List Descriptor)
    (data : CommonData) : Prop where
  /-- The descriptors of common data are those at the positions where the data has a column. -/
  stands : ∀ index : Nat, descriptors[index]?.any Descriptor.isCommon =
    (data.columns h)[index]?.join.isSome
  read : ∀ segment, segment.length = data.bytes.length → source.Holds segment.start data.bytes →
    ∃ table, Gives (fun _ => True) (CommonTable.read source segment h descriptors) table ∧
      data.IsIn h (some table)
  load : ∀ m, m.layout = layout → m.descriptors = descriptors →
    source.Finds (layout.findShared? .commonData) data.bytes →
      ∃ common, Gives (fun _ => True) (SharedTables.readCommon source m h) common ∧
        data.IsIn h common
  /-- A row has the value that is stored under its key, or else that of the descriptor. -/
  element : ∀ (c : RowContext) (index : Nat) d kind key state, c.descriptors = descriptors →
    data.IsIn h c.common → descriptors[index]? = some d → d.isCommon = true →
      (c.commonElement index kind key).on state =
        (RowContext.wordScalar ((key.bind (data.value? h index)).getD d.defaultValue) kind).on state

theorem any_isCommon_append {columns others : List Descriptor}
    {stored : List (Option (List KeyedWord))}
    (h : columns.map Descriptor.isCommon = stored.map Option.isSome)
    (hothers : ∀ d ∈ others, d.isCommon = false) (index : Nat) :
    (columns ++ others)[index]?.any Descriptor.isCommon = stored[index]?.join.isSome := by
  have hlength : columns.length = stored.length := by simpa using congrArg List.length h
  rcases Nat.lt_or_ge index columns.length with hlt | hle
  · have hsame : columns[index].isCommon = stored[index].isSome := by
      simpa [hlt, hlength ▸ hlt] using congrArg (·[index]?) h
    rw [List.getElem?_append_left hlt, List.getElem?_eq_getElem hlt,
      List.getElem?_eq_getElem (hlength ▸ hlt)]
    exact hsame
  · have hnone : stored[index]? = none := List.getElem?_eq_none (hlength ▸ hle)
    rw [List.getElem?_append_right hle, hnone]
    cases hd : others[index - columns.length]? with
    | none => rfl
    | some d => exact hothers d (List.mem_of_getElem? hd)

theorem on_commonElement_of_isIn {c : RowContext} {data : CommonData} {h : Header}
    (hin : data.IsIn h c.common) {index : Nat} {d : Descriptor}
    (hd : c.descriptors[index]? = some d) (hcommon : d.isCommon = true) (kind : FieldKind)
    (key : Option UInt32) (state : RowState) :
    (c.commonElement index kind key).on state =
      (RowContext.wordScalar ((key.bind (data.value? h index)).getD d.defaultValue) kind).on
        state := by
  have hdescriptor : (liftM (c.descriptor index) : Decode Descriptor).on state =
      (.ok d, state) := by
    rw [RowContext.descriptor, hd]
    rfl
  rw [RowContext.commonElement, on_bind_of_ok hdescriptor]
  have hown : (c.common.bind fun table => key.bind fun key => table.value? index key) =
      key.bind (data.value? h index) := by
    cases key with
    | none => cases c.common <;> rfl
    | some key => exact hin index key
  unfold Descriptor.isCommon at hcommon
  cases hstorage : d.storage with
  | common value chunk =>
      have hdefault : d.defaultValue = value := by
        rw [Descriptor.defaultValue, hstorage]
      dsimp only
      rw [hown, hdefault]
  | _ =>
      rw [hstorage] at hcommon
      cases hcommon

/-- Where the fields of a file can be described, its common data is found where it has been stored;
a common block that does not have the chunks of the fields is refused. -/
theorem isFound_of_readAll {schema : Schema} (hplan : Layout.plan h = .ok layout)
    (hbuild : (Descriptor.readAll source h layout schema).outcome = .ok descriptors) :
    (∀ data : CommonData, data.Describes source h layout →
      data.IsFound source h layout descriptors) ∧
    (h.signature.hasStorageInfo = true → ∀ (segment : Segment) (block : Bytes),
      segment.length = block.length → source.Holds segment.start block →
      (∃ d ∈ descriptors, d.isCommon = true ∧ ¬d.chunk.Fits block.length) →
      ∀ count, ∃ e, ((CommonTable.read source segment h descriptors).on count).1 = .error e ∧
        e.isMalformedFile = true) := by
  constructor
  · intro data hdata
    obtain ⟨columns, hbuilds, hcompletes⟩ :=
      Descriptor.ensures_readAll (ensures_readColumns hdata hplan schema) 0 descriptors hbuild
    obtain ⟨others, hothers, rfl⟩ := hcompletes.exists_append
    constructor
    · exact any_isCommon_append (hbuilds.map_isCommon hdata) hothers
    · intro segment hlength hholds
      exact ⟨_, hbuilds.gives_read hdata hothers hlength hholds, isIn_numbered h data⟩
    · rintro m rfl hdescriptors hfinds
      unfold SharedTables.readCommon
      cases hfound : m.layout.findShared? .commonData with
      | none =>
          rw [hfound] at hfinds
          exact ⟨none, gives_pure none, isIn_none hfinds.eq_nil_of_none⟩
      | some segment =>
          rw [hfound] at hfinds
          obtain ⟨-, hlength, hholds⟩ := hfinds
          rw [hdescriptors]
          exact ⟨_, (hbuilds.gives_read hdata hothers hlength hholds).bind (gives_pure _),
            isIn_numbered h data⟩
    · rintro c index d kind key state hdescriptors hin hd hcommon
      rw [← hdescriptors] at hd
      exact on_commonElement_of_isIn hin hd hcommon kind key state
  · rintro hstorage segment block hlength hholds ⟨d, hd, hcommon, hfits⟩ count
    exact CommonTable.on_read_of_not_fits hstorage hlength hholds hd hcommon hfits count

/-- Two columns behind the only field of a record; one key is there twice, and the second column has
no values. -/
def twoRuns : CommonData :=
  ofRuns [⟨4, [⟨5, 70⟩, ⟨6, 8⟩, ⟨5, 71⟩]⟩, ⟨0, []⟩]

def twoRunsFile : Source :=
  .memory (Reader.wordFile .wdb6 [1, 1, 4, 0, 0, 0, 0, 0, 0, 0, 0, 3, 34, 0, 5] ++ twoRuns.bytes)

def twoRunsHeader : Header :=
  { Header.basic .wdb6 1 1 4 0 with totalFieldCount := 3, commonDataSize := 34, headerEnd := 56 }

def twoRunsLayout : Layout where
  shared := [⟨.fieldInfo, 56, 4⟩, ⟨.commonData, 64, 34⟩]
  sections := [⟨0, 1, [⟨.records, 60, 4⟩, ⟨.stringBlock, 64, 0⟩, ⟨.copyTable, 64, 0⟩]⟩]

def twoRunsDescriptors : List Descriptor :=
  [⟨0, 32, 1, .plain false⟩, ⟨32, 32, 1, .common 0 .none⟩, ⟨32, 32, 1, .common 0 .none⟩]

/-- Three common-data entries, one of them without values, among two of other kinds. -/
def fiveEntries : CommonData :=
  ofEntries [⟨⟨0, 0, 16, 2, 9, 0, 0⟩, [⟨5, 70⟩, ⟨5, 71⟩]⟩, ⟨⟨0, 8, 4, 3, 0, 0, 0⟩, []⟩,
    ⟨⟨8, 0, 0, 2, 1, 0, 0⟩, []⟩, ⟨⟨8, 8, 0, 1, 0, 0, 0⟩, []⟩, ⟨⟨16, 0, 8, 2, 4, 0, 0⟩, [⟨7, 3⟩]⟩]

def fiveEntriesFile : Source :=
  .memory (Reader.wordFile .wdc1 [1, 5, 4, 0, 0, 0, 5, 5, 0, 0, 0, 5, 0, 0, 0, 4, 120, 24, 4, 0,
    32, 24, 32, 0x10018, 32, 0, 5, 0, 16, 2, 9, 0, 0, 0x80000, 4, 3, 0, 0, 0, 8, 0, 2, 1, 0, 0,
    0x80008, 0, 1, 0, 0, 0, 16, 8, 2, 4, 0, 0, 2] ++ fiveEntries.bytes)

def fiveEntriesHeader : Header :=
  { Header.basic .wdc1 1 5 4 0 with
    minIndex := 5, maxIndex := 5, totalFieldCount := 5, commonDataSize := 24,
    storage := some ⟨0, 0, 120, 4, 0, 4, 0⟩, headerEnd := 84 }

def fiveEntriesLayout : Layout where
  shared :=
    [⟨.fieldInfo, 84, 20⟩, ⟨.fieldStorageInfo, 112, 120⟩, ⟨.palletData, 232, 4⟩,
      ⟨.commonData, 236, 24⟩]
  sections :=
    [⟨0, 1, [⟨.records, 104, 4⟩, ⟨.stringBlock, 108, 0⟩, ⟨.indexTable, 108, 4⟩,
      ⟨.copyTable, 112, 0⟩, ⟨.relationshipTable, 260, 0⟩]⟩]

def fiveEntriesDescriptors : List Descriptor :=
  [⟨0, 0, 1, .common 9 ⟨0, 16⟩⟩, ⟨0, 8, 1, .pallet ⟨0, 4⟩⟩, ⟨8, 0, 1, .common 1 ⟨16, 0⟩⟩,
    ⟨8, 8, 1, .immediate false⟩, ⟨16, 0, 1, .common 4 ⟨16, 8⟩⟩]

theorem isFound_twoRuns_fiveEntries :
    ((twoRunsFile.parse Metadata.parseStart).outcome = .ok (.wdb6, some twoRunsHeader) ∧
      twoRuns.Describes twoRunsFile twoRunsHeader twoRunsLayout ∧
      twoRuns.IsFound twoRunsFile twoRunsHeader twoRunsLayout twoRunsDescriptors ∧
      (twoRuns.value? twoRunsHeader 1 5, twoRuns.value? twoRunsHeader 1 7,
        twoRuns.value? twoRunsHeader 2 5, twoRuns.value? twoRunsHeader 0 5) =
          (some 71, none, none, none)) ∧
    (fiveEntriesFile.parse Metadata.parseStart).outcome = .ok (.wdc1, some fiveEntriesHeader) ∧
      fiveEntries.Describes fiveEntriesFile fiveEntriesHeader fiveEntriesLayout ∧
      fiveEntries.IsFound fiveEntriesFile fiveEntriesHeader fiveEntriesLayout
        fiveEntriesDescriptors ∧
      (fiveEntries.value? fiveEntriesHeader 0 5, fiveEntries.value? fiveEntriesHeader 4 7,
        fiveEntries.value? fiveEntriesHeader 2 5, fiveEntries.value? fiveEntriesHeader 1 5) =
          (some 71, some 3, none, none) ∧
      ∃ e, ((CommonTable.read fiveEntriesFile ⟨.commonData, 236, 16⟩ fiveEntriesHeader
        fiveEntriesDescriptors).on 0).1 = .error e ∧ e.isMalformedFile = true := by
  have hruns : twoRuns.Describes twoRunsFile twoRunsHeader twoRunsLayout := by
    refine ⟨rfl, by decide, ?_⟩
    rintro run (_ | ⟨_, _ | ⟨_, ⟨⟩⟩⟩)
    · exact ⟨by decide, by decide⟩
    · exact ⟨by decide, by decide⟩
  have hentries : fiveEntries.Describes fiveEntriesFile fiveEntriesHeader fiveEntriesLayout :=
    ⟨rfl, by decide, by decide, rfl, ⟨_, rfl⟩⟩
  have hrunsPlan : Layout.plan twoRunsHeader = .ok twoRunsLayout := by decide +kernel
  have hrunsBuild : (Descriptor.readAll twoRunsFile twoRunsHeader twoRunsLayout ⟨[]⟩).outcome =
      .ok twoRunsDescriptors := by
    decide +kernel
  have hentriesPlan : Layout.plan fiveEntriesHeader = .ok fiveEntriesLayout := by decide +kernel
  have hentriesBuild : (Descriptor.readAll fiveEntriesFile fiveEntriesHeader fiveEntriesLayout
      ⟨[]⟩).outcome = .ok fiveEntriesDescriptors := by
    decide +kernel
  obtain ⟨hfound, -⟩ := isFound_of_readAll hrunsPlan hrunsBuild
  obtain ⟨hstored, hrefused⟩ := isFound_of_readAll hentriesPlan hentriesBuild
  refine ⟨⟨by decide +kernel, hruns, hfound _ hruns, by decide⟩, by decide +kernel, hentries,
    hstored _ hentries, by decide, ?_⟩
  refine hrefused rfl ⟨.commonData, 236, 16⟩ (fiveEntries.bytes.take 16) (by decide) ?_ ?_ 0
  · exact ⟨fiveEntries.bytes.drop 16, rfl⟩
  · refine ⟨⟨16, 0, 1, .common 4 ⟨16, 8⟩⟩, by decide, rfl, ?_⟩
    rintro ⟨hstop, -⟩
    revert hstop
    decide

end CommonData

end ClientTable
