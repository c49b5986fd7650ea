import ClientTable.Proofs.BitFields
import ClientTable.Proofs.Tables
import ClientTable.Descriptor.Build
import ClientTable.Lookup.CommonTable

/-!
Columns as a file with storage info has them, and the entries and blocks that describe them. The
descriptors that are read off the entries say for each column where its bits and its chunk are.
-/

namespace ClientTable

namespace StorageInfo

variable {info : StorageInfo} {index : Nat} {field? : Option FieldInfo} {offsets : ChunkOffsets}

theorem descriptor_plain (hcode : info.code = 0) {bits : Nat}
    (hbits : info.plainBits index field? = .ok bits) :
    info.descriptor index field? offsets =
      .ok (⟨info.bitOffset.toNat, bits, max (info.bitSize.toNat / bits) 1, .plain false⟩,
        offsets) := by
  unfold descriptor
  rw [hcode]
  change (info.plainBits index field? >>= fun bits => _) = _
  rw [hbits]
  rfl

theorem descriptor_immediate (hcode : info.code = 1) :
    info.descriptor index field? offsets =
      .ok (⟨info.bitOffset.toNat, info.packedBits, 1, .immediate (info.third &&& 1 ≠ 0)⟩,
        offsets) := by
  unfold descriptor
  rw [hcode]
  rfl

theorem descriptor_common (hcode : info.code = 2) {chunk : Chunk}
    (hchunk : info.chunkAt index offsets.common = .ok chunk) :
    info.descriptor index field? offsets =
      .ok (⟨info.bitOffset.toNat, 0, 1, .common info.first chunk⟩,
        { offsets with common := chunk.stop }) := by
  unfold descriptor
  rw [hcode]
  change (info.chunkAt index offsets.common >>= fun chunk => _) = _
  rw [hchunk]
  rfl

theorem descriptor_pallet (hcode : info.code = 3) {chunk : Chunk}
    (hchunk : info.chunkAt index offsets.pallet = .ok chunk) :
    info.descriptor index field? offsets =
      .ok (⟨info.bitOffset.toNat, info.packedBits, 1, .pallet chunk⟩,
        { offsets with pallet := chunk.stop }) := by
  unfold descriptor
  rw [hcode]
  change (info.chunkAt index offsets.pallet >>= fun chunk => _) = _
  rw [hchunk]
  rfl

theorem descriptor_palletArray (hcode : info.code = 4) {chunk : Chunk}
    (hchunk : info.chunkAt index offsets.pallet = .ok chunk) :
    info.descriptor index field? offsets =
      .ok (⟨info.bitOffset.toNat, info.packedBits, max info.third.toNat 1, .palletArray chunk⟩,
        { offsets with pallet := chunk.stop }) := by
  unfold descriptor
  rw [hcode]
  change (info.chunkAt index offsets.pallet >>= fun chunk => _) = _
  rw [hchunk]
  rfl

theorem chunkAt_of_lt {size start : Nat} (hsize : info.chunkSize = UInt32.ofNat size)
    (hfits : start + size < wordLimit) : info.chunkAt index start = .ok ⟨start, size⟩ := by
  have htoNat : info.chunkSize.toNat = size := by
    rw [hsize]
    exact toNat_ofNat_of_lt (by omega)
  have hinside : ¬ wordLimit ≤ start + size := by omega
  unfold chunkAt
  rw [htoNat, if_neg hinside]
  rfl

theorem packedBits_eq {width : Nat} (hpositive : 1 ≤ width) (hsmall : width ≤ 64)
    (hsecond : info.second = UInt32.ofNat width) : info.packedBits = width := by
  have htoNat : (UInt32.ofNat width).toNat = width :=
    UInt32.toNat_ofNat_of_lt' (by simp only [UInt32.size]; omega)
  have hne : info.second ≠ 0 := by
    intro hzero
    rw [hsecond] at hzero
    rw [hzero] at htoNat
    simp at htoNat
    omega
  unfold packedBits
  rw [if_neg hne, hsecond, htoNat]

end StorageInfo

/-- How the values of a field are stored. -/
inductive Column where
  | plain (width arity : Nat)
  | immediate (width : Nat) (signed : Bool)
  | pallet (width : Nat) (words : List UInt32)
  | palletArray (width arity : Nat) (tuples : List (Vector UInt32 arity))
  | common (default : UInt32) (entries : List KeyedWord)

namespace Column

def arity : Column → Nat
  | plain _ arity | palletArray _ arity _ => arity
  | immediate .. | pallet .. | common .. => 1

def width : Column → Nat
  | plain width _ | immediate width _ | pallet width _ | palletArray width _ _ => width
  | common .. => 0

def recordWidth : Column → Nat
  | plain width arity => width * arity
  | immediate width _ | pallet width _ | palletArray width _ _ => width
  | common .. => 0

def palletWords : Column → List UInt32
  | pallet _ words => words
  | palletArray _ _ tuples => tuples.flatMap Vector.toList
  | _ => []

def palletBytes (column : Column) : Bytes :=
  column.palletWords.flatMap wordBytes

def commonBytes : Column → Bytes
  | common _ entries => entries.flatMap KeyedWord.bytes
  | _ => []

/-- Widths that can be read, and indexes that can be stored. -/
def Valid : Column → Prop
  | plain width arity => (1 ≤ width ∧ width ≤ 64) ∧ 1 ≤ arity ∧ arity < wordLimit
  | immediate width _ => 1 ≤ width ∧ width ≤ 64
  | pallet width words => (1 ≤ width ∧ width ≤ 64) ∧ words.length ≤ 2 ^ width
  | palletArray width arity tuples =>
    (1 ≤ width ∧ width ≤ 64) ∧ (1 ≤ arity ∧ arity < wordLimit) ∧ tuples.length ≤ 2 ^ width
  | common .. => True

instance : DecidablePred Valid
  | plain .. => inferInstanceAs (Decidable (_ ∧ _))
  | immediate .. => inferInstanceAs (Decidable (_ ∧ _))
  | pallet .. => inferInstanceAs (Decidable (_ ∧ _))
  | palletArray .. => inferInstanceAs (Decidable (_ ∧ _))
  | common .. => inferInstanceAs (Decidable True)

def fieldInfo (offset : Nat) (column : Column) : FieldInfo :=
  ⟨32 - UInt16.ofNat column.width, UInt16.ofNat (offset / 8)⟩

def storageInfo (offset : Nat) (column : Column) : StorageInfo where
  bitOffset := UInt16.ofNat offset
  bitSize := UInt16.ofNat column.recordWidth
  chunkSize := UInt32.ofNat (column.palletBytes.length + column.commonBytes.length)
  code := match column with
    | plain .. => 0
    | immediate .. => 1
    | common .. => 2
    | pallet .. => 3
    | palletArray .. => 4
  first := match column with
    | common default _ => default
    | _ => 0
  second := match column with
    | immediate width _ | pallet width _ | palletArray width _ _ => UInt32.ofNat width
    | _ => 0
  third := match column with
    | immediate _ signed => if signed then 1 else 0
    | palletArray _ arity _ => UInt32.ofNat arity
    | _ => 0

def next (column : Column) (offsets : ChunkOffsets) : ChunkOffsets :=
  ⟨offsets.pallet + column.palletBytes.length, offsets.common + column.commonBytes.length⟩

/-- The stored field that a column is, with its place in the record and in the blocks. -/
def descriptor (offset : Nat) (offsets : ChunkOffsets) (column : Column) : Descriptor where
  bitOffset := offset
  bitSize := column.width
  cardinality := column.arity
  storage := match column with
    | plain .. => .plain false
    | immediate _ signed => .immediate signed
    | common default _ => .common default ⟨offsets.common, column.commonBytes.length⟩
    | pallet .. => .pallet ⟨offsets.pallet, column.palletBytes.length⟩
    | palletArray .. => .palletArray ⟨offsets.pallet, column.palletBytes.length⟩

def fieldInfos : (offset : Nat) → List Column → List FieldInfo
  | _, [] => []
  | offset, column :: columns =>
    column.fieldInfo offset :: fieldInfos (offset + column.recordWidth) columns

def storageInfos : (offset : Nat) → List Column → List StorageInfo
  | _, [] => []
  | offset, column :: columns =>
    column.storageInfo offset :: storageInfos (offset + column.recordWidth) columns

def descriptors : (offset : Nat) → ChunkOffsets → List Column → List Descriptor
  | _, _, [] => []
  | offset, offsets, column :: columns =>
    column.descriptor offset offsets ::
      descriptors (offset + column.recordWidth) (column.next offsets) columns

def recordWidthOf (columns : List Column) : Nat :=
  total (columns.map recordWidth)

def palletBlock (columns : List Column) : Bytes :=
  columns.flatMap palletBytes

def commonBlock (columns : List Column) : Bytes :=
  columns.flatMap commonBytes

/-- The offset and size words of storage info can hold those of the column. -/
structure FitsAt (offset : Nat) (offsets : ChunkOffsets) (column : Column) : Prop where
  offset : offset < 2 ^ 16
  width : column.recordWidth < 2 ^ 16
  pallet : offsets.pallet + column.palletBytes.length < wordLimit
  common : offsets.common + column.commonBytes.length < wordLimit

theorem declaredBits_eq (w : Fin 65) :
    (32 : Int) - (32 - UInt16.ofNat w).toInt16.toInt = w := by
  revert w
  decide +kernel

theorem bitSize_fieldInfo {width : Nat} (hpositive : 1 ≤ width) (hsmall : width ≤ 64)
    (position : UInt16) :
    (FieldInfo.mk (32 - UInt16.ofNat width) position).bitSize = .ok width := by
  have hwidth : (FieldInfo.mk (32 - UInt16.ofNat width) position).declaredBits = width :=
    declaredBits_eq ⟨width, by omega⟩
  have hrange : 1 ≤ (width : Int) ∧ (width : Int) ≤ 64 := by omega
  unfold FieldInfo.bitSize
  rw [hwidth, if_pos hrange]
  rfl

theorem plainBits_eq {info : StorageInfo} {index width : Nat} (hpositive : 1 ≤ width)
    (hsmall : width ≤ 64) (position : UInt16) :
    info.plainBits index (some ⟨32 - UInt16.ofNat width, position⟩) = .ok width := by
  have hne : width ≠ 0 := by omega
  unfold StorageInfo.plainBits
  dsimp only
  rw [bitSize_fieldInfo hpositive hsmall]
  change (if width = 0 then throw _ else return width) = _
  rw [if_neg hne]
  rfl

/-- The entries of a column say where its bits and its chunk are. -/
theorem descriptor_storageInfo {offset index : Nat} {offsets : ChunkOffsets} {column : Column}
    (hvalid : column.Valid) (hfits : column.FitsAt offset offsets) :
    (column.storageInfo offset).descriptor index (some (column.fieldInfo offset)) offsets =
      .ok (column.descriptor offset offsets, column.next offsets) := by
  have hoffset : (column.storageInfo offset).bitOffset.toNat = offset :=
    UInt16.toNat_ofNat_of_lt' hfits.offset
  have hsize : (column.storageInfo offset).bitSize.toNat = column.recordWidth :=
    UInt16.toNat_ofNat_of_lt' hfits.width
  cases column with
  | plain width arity =>
      obtain ⟨⟨hpositive, hsmall⟩, harity, _⟩ := hvalid
      have hcount : max (width * arity / width) 1 = arity := by
        rw [Nat.mul_div_cancel_left _ (by omega)]
        omega
      have hbits : (storageInfo offset (plain width arity)).plainBits index
          (some ((plain width arity).fieldInfo offset)) = .ok width :=
        plainBits_eq hpositive hsmall _
      rw [StorageInfo.descriptor_plain (by rfl) hbits, hoffset, hsize]
      change Except.ok (Descriptor.mk offset width (max (width * arity / width) 1) _, _) = _
      rw [hcount]
      rfl
  | immediate width signed =>
      obtain ⟨hpositive, hsmall⟩ := hvalid
      have hsigned : decide ((storageInfo offset (immediate width signed)).third &&& 1 ≠ 0) =
          signed := by
        change decide ((if signed then (1 : UInt32) else 0) &&& 1 ≠ 0) = signed
        cases signed <;> decide
      rw [StorageInfo.descriptor_immediate rfl, hoffset,
        StorageInfo.packedBits_eq hpositive hsmall rfl, hsigned]
      rfl
  | pallet width words =>
      obtain ⟨⟨hpositive, hsmall⟩, _⟩ := hvalid
      rw [StorageInfo.descriptor_pallet rfl (StorageInfo.chunkAt_of_lt rfl hfits.pallet), hoffset,
        StorageInfo.packedBits_eq hpositive hsmall rfl]
      rfl
  | palletArray width arity tuples =>
      obtain ⟨⟨hpositive, hsmall⟩, ⟨harity, hlimit⟩, _⟩ := hvalid
      have hthird : (UInt32.ofNat arity).toNat = arity := toNat_ofNat_of_lt hlimit
      have hcount : max arity 1 = arity := by omega
      rw [StorageInfo.descriptor_palletArray rfl (StorageInfo.chunkAt_of_lt rfl hfits.pallet),
        hoffset, StorageInfo.packedBits_eq hpositive hsmall rfl]
      change Except.ok (Descriptor.mk offset width (max (UInt32.ofNat arity).toNat 1) _, _) = _
      rw [hthird, hcount]
      rfl
  | common default entries =>
      have hlength : (common default entries).palletBytes.length +
          (common default entries).commonBytes.length =
            (common default entries).commonBytes.length := Nat.zero_add _
      have hchunk : (storageInfo offset (common default entries)).chunkSize =
          UInt32.ofNat (common default entries).commonBytes.length := by
        unfold storageInfo
        rw [hlength]
      rw [StorageInfo.descriptor_common rfl (StorageInfo.chunkAt_of_lt hchunk hfits.common),
        hoffset]
      rfl

/-- Each column of a list fits where the ones before it end. -/
def AllFit : (offset : Nat) → ChunkOffsets → List Column → Prop
  | _, _, [] => True
  | offset, offsets, column :: columns =>
    column.FitsAt offset offsets ∧
      AllFit (offset + column.recordWidth) (column.next offsets) columns

theorem AllFit.length_blocks_lt {offset : Nat} {offsets : ChunkOffsets} {columns : List Column}
    (h : AllFit offset offsets columns) (hpallet : offsets.pallet < wordLimit)
    (hcommon : offsets.common < wordLimit) :
    offsets.pallet + (palletBlock columns).length < wordLimit ∧
      offsets.common + (commonBlock columns).length < wordLimit := by
  induction columns generalizing offset offsets with
  | nil => exact ⟨hpallet, hcommon⟩
  | cons column columns ih =>
      obtain ⟨hfirst, hrest⟩ := h
      have hlengths := ih hrest hfirst.pallet hfirst.common
      simp only [palletBlock, commonBlock, List.flatMap_cons, List.length_append, next,
        ← Nat.add_assoc] at hlengths ⊢
      exact hlengths

theorem descriptors_storageInfos {infos : List FieldInfo} {columns : List Column}
    (hvalid : ∀ column ∈ columns, column.Valid) {offset index : Nat} {offsets : ChunkOffsets}
    (hfits : AllFit offset offsets columns)
    (hinfos : infos.drop index = fieldInfos offset columns) :
    StorageInfo.descriptors infos index offsets (storageInfos offset columns) =
      .ok (descriptors offset offsets columns) := by
  induction columns generalizing offset index offsets with
  | nil => rfl
  | cons column columns ih =>
      obtain ⟨hfirst, hrest⟩ := hfits
      have hinfo : infos[index]? = some (column.fieldInfo offset) := by
        rw [← List.head?_drop, hinfos]
        rfl
      have hbehind : infos.drop (index + 1) =
          fieldInfos (offset + column.recordWidth) columns := by
        rw [← List.tail_drop, hinfos]
        rfl
      have hothers := ih (fun other hother => hvalid other (List.mem_cons_of_mem _ hother))
        hrest hbehind
      rw [storageInfos, StorageInfo.descriptors, hinfo,
        descriptor_storageInfo (hvalid column (List.mem_cons_self ..)) hfirst]
      change (StorageInfo.descriptors infos (index + 1) (column.next offsets)
        (storageInfos (offset + column.recordWidth) columns) >>= fun others => _) = _
      rw [hothers]
      rfl

theorem length_fieldInfos (offset : Nat) (columns : List Column) :
    (fieldInfos offset columns).length = columns.length := by
  induction columns generalizing offset with
  | nil => rfl
  | cons column columns ih => rw [fieldInfos, List.length_cons, ih, List.length_cons]

theorem length_storageInfos (offset : Nat) (columns : List Column) :
    (storageInfos offset columns).length = columns.length := by
  induction columns generalizing offset with
  | nil => rfl
  | cons column columns ih => rw [storageInfos, List.length_cons, ih, List.length_cons]

theorem length_descriptors (offset : Nat) (offsets : ChunkOffsets) (columns : List Column) :
    (descriptors offset offsets columns).length = columns.length := by
  induction columns generalizing offset offsets with
  | nil => rfl
  | cons column columns ih => rw [descriptors, List.length_cons, ih, List.length_cons]

theorem recordBits_descriptor (offset : Nat) (offsets : ChunkOffsets) (column : Column) :
    (column.descriptor offset offsets).recordBits = column.recordWidth := by
  cases column with
  | plain width arity => rfl
  | immediate width signed => exact Nat.mul_one width
  | pallet width words => exact Nat.mul_one width
  | palletArray width arity tuples => rfl
  | common default entries => rfl

theorem total_recordBits (offset : Nat) (offsets : ChunkOffsets) (columns : List Column) :
    total ((descriptors offset offsets columns).map Descriptor.recordBits) =
      recordWidthOf columns := by
  induction columns generalizing offset offsets with
  | nil => rfl
  | cons column columns ih =>
      rw [descriptors, List.map_cons, total_cons, recordBits_descriptor, ih]
      rfl

theorem bitStop_le {offset : Nat} {offsets : ChunkOffsets} {columns : List Column} :
    ∀ d ∈ descriptors offset offsets columns, d.bitStop ≤ offset + recordWidthOf columns := by
  induction columns generalizing offset offsets with
  | nil => exact nofun
  | cons column columns ih =>
      have hwidth : recordWidthOf (column :: columns) =
          column.recordWidth + recordWidthOf columns := rfl
      rintro d (_ | ⟨_, hd⟩)
      · rw [Descriptor.bitStop, recordBits_descriptor, hwidth]
        exact Nat.add_le_add_left (Nat.le_add_right ..) offset
      · have hrest := ih d hd
        omega

end Column

theorem foldl_max_le {numbers : List Nat} {bound start : Nat} (hstart : start ≤ bound)
    (h : ∀ n ∈ numbers, n ≤ bound) : numbers.foldl max start ≤ bound := by
  induction numbers generalizing start with
  | nil => exact hstart
  | cons n numbers ih =>
      exact ih (Nat.max_le.mpr ⟨hstart, h n (List.mem_cons_self ..)⟩)
        fun m hm => h m (List.mem_cons_of_mem _ hm)

theorem Descriptor.checkWidth_of_le {h : Header} {descriptors : List Descriptor}
    (hsum : total (descriptors.map recordBits) ≤ h.recordBits)
    (hreach : ∀ d ∈ descriptors, 0 < d.recordBits → d.bitStop ≤ h.recordBits) :
    checkWidth h descriptors = .ok () := by
  have hstops : (((descriptors.filter fun d => 0 < d.recordBits).map bitStop).foldl max 0) ≤
      h.recordBits := by
    apply foldl_max_le (Nat.zero_le _)
    intro n hn
    obtain ⟨d, hd, rfl⟩ := List.mem_map.mp hn
    obtain ⟨hmem, hstored⟩ := List.mem_filter.mp hd
    exact hreach d hmem (by simpa using hstored)
  unfold checkWidth
  split
  · rfl
  · dsimp only
    rw [if_neg (by omega)]
    rfl

theorem Descriptor.checkWidth_append {h : Header} {columns others : List Descriptor}
    (hothers : ∀ d ∈ others, d.recordBits = 0)
    (hsum : total (columns.map recordBits) ≤ h.recordBits)
    (hreach : ∀ d ∈ columns, 0 < d.recordBits → d.bitStop ≤ h.recordBits) :
    checkWidth h (columns ++ others) = .ok () := by
  have hzero : total (others.map recordBits) = 0 := by
    induction others with
    | nil => rfl
    | cons d others ih =>
        rw [List.map_cons, total_cons, hothers d (List.mem_cons_self ..),
          ih fun other hother => hothers other (List.mem_cons_of_mem _ hother)]
  apply checkWidth_of_le
  · rw [List.map_append, total_append, hzero, Nat.add_zero]
    exact hsum
  · intro d hd hstored
    rcases List.mem_append.mp hd with hcolumn | hother
    · exact hreach d hcolumn hstored
    · rw [hothers d hother] at hstored
      cases hstored

namespace Column

theorem checkWidth_descriptors {h : Header} {offsets : ChunkOffsets} {columns : List Column}
    {others : List Descriptor} (hothers : ∀ d ∈ others, d.recordBits = 0)
    (hfits : recordWidthOf columns ≤ h.recordBits) :
    Descriptor.checkWidth h (descriptors 0 offsets columns ++ others) = .ok () := by
  refine Descriptor.checkWidth_append hothers ?_ fun d hd _ => ?_
  · rwa [total_recordBits]
  · have hstop := bitStop_le d hd
    omega

/-- What the common block has to say about columns that are numbered from `index` on. -/
def commonColumns : (index : Nat) → List Column → List CommonColumn
  | _, [] => []
  | index, common _ entries :: columns => ⟨index, entries⟩ :: commonColumns (index + 1) columns
  | index, _ :: columns => commonColumns (index + 1) columns

theorem columnOfChunk_eq (index : Nat) {block behind : Bytes} {start : Nat}
    {entries : List KeyedWord} (hstart : start ≤ block.length)
    (hblock : block.drop start = entries.flatMap KeyedWord.bytes ++ behind) :
    CommonTable.columnOfChunk block index ⟨start, (entries.flatMap KeyedWord.bytes).length⟩ =
      .ok ⟨index, entries⟩ := by
  have hcount := Block.entryCount_of_flatMap (by decide) KeyedWord.length_bytes entries
    .commonChunk
  have hread := (Parse.reads_many KeyedWord.reads_parse 0 entries).decode
  have hlength := congrArg List.length hblock
  rw [List.length_drop, List.length_append] at hlength
  have hinside : ¬ block.length <
      (Chunk.mk start (entries.flatMap KeyedWord.bytes).length).stop := by
    change ¬ block.length < start + (entries.flatMap KeyedWord.bytes).length
    omega
  unfold CommonTable.columnOfChunk
  rw [if_neg hinside, hcount, hblock, List.take_left]
  change (Parse.decode (Parse.many KeyedWord.parse entries.length) _ >>= fun values => _) = _
  rw [hread]
  rfl

/-- The chunks of the common block are read as what was written for the columns. -/
theorem columnsOfChunks_descriptors {block : Bytes} {columns : List Column}
    {others : List Descriptor} (hothers : ∀ d ∈ others, d.isCommon = false)
    {index offset : Nat} {offsets : ChunkOffsets} (hstart : offsets.common ≤ block.length)
    (hblock : block.drop offsets.common = commonBlock columns) :
    CommonTable.columnsOfChunks block index (descriptors offset offsets columns ++ others) =
      .ok (commonColumns index columns) := by
  induction columns generalizing index offset offsets with
  | nil => exact CommonTable.columnsOfChunks_of_not_common block index hothers
  | cons column columns ih =>
      have hsplit : block.drop offsets.common = column.commonBytes ++ commonBlock columns :=
        hblock
      have hlength := congrArg List.length hsplit
      rw [List.length_drop, List.length_append] at hlength
      have hend : (column.next offsets).common ≤ block.length := by
        change offsets.common + column.commonBytes.length ≤ block.length
        omega
      have hbehind : block.drop (column.next offsets).common = commonBlock columns := by
        change block.drop (offsets.common + column.commonBytes.length) = _
        rw [← List.drop_drop, hsplit, List.drop_left]
      have hrest : CommonTable.columnsOfChunks block (index + 1)
          (descriptors (offset + column.recordWidth) (column.next offsets) columns ++ others) =
            .ok (commonColumns (index + 1) columns) := ih hend hbehind
      rw [descriptors, List.cons_append, CommonTable.columnsOfChunks]
      cases column with
      | common default entries =>
          have hfirst := columnOfChunk_eq index hstart hsplit
          change (CommonTable.columnOfChunk block index ⟨offsets.common,
            (entries.flatMap KeyedWord.bytes).length⟩ >>= fun first => _) = _
          rw [hfirst]
          change (CommonTable.columnsOfChunks block (index + 1) _ >>= fun others => _) = _
          rw [hrest]
          rfl
      | _ => exact hrest

end Column

namespace CommonTable

theorem value?_cons (first : CommonColumn) (columns : List CommonColumn) (column : Nat)
    (key : UInt32) :
    value? ⟨first :: columns⟩ column key =
      (value? ⟨columns⟩ column key).or
        (if first.column = column then KeyedWord.lookup? first.values key else none) := by
  unfold value?
  rw [List.reverse_cons, List.findSome?_append]
  congr 1
  simp

theorem value?_eq_none {columns : List CommonColumn} {column : Nat} (key : UInt32)
    (h : ∀ c ∈ columns, c.column ≠ column) : value? ⟨columns⟩ column key = none := by
  unfold value?
  refine List.findSome?_eq_none_iff.mpr fun c hc => ?_
  rw [if_neg (h c (List.mem_reverse.mp hc))]

def numbered : (index : Nat) → List (Option (List KeyedWord)) → List CommonColumn
  | _, [] => []
  | index, none :: columns => numbered (index + 1) columns
  | index, some values :: columns => ⟨index, values⟩ :: numbered (index + 1) columns

theorem le_of_mem_numbered {index : Nat} {columns : List (Option (List KeyedWord))} :
    ∀ c ∈ numbered index columns, index ≤ c.column := by
  induction columns generalizing index with
  | nil => exact nofun
  | cons column columns ih =>
      have hrest : ∀ c ∈ numbered (index + 1) columns, index ≤ c.column :=
        fun c hc => Nat.le_of_succ_le (ih c hc)
      cases column with
      | none => exact hrest
      | some values => exact List.forall_mem_cons.mpr ⟨Nat.le_refl index, hrest⟩

/-- A value is looked up in the column at its position. -/
theorem value?_numbered (index i : Nat) (columns : List (Option (List KeyedWord)))
    (key : UInt32) :
    value? ⟨numbered index columns⟩ (index + i) key =
      columns[i]?.join.bind fun values => KeyedWord.lookup? values key := by
  induction columns generalizing index i with
  | nil => rfl
  | cons column columns ih =>
      have hrest (i : Nat) := ih (index + 1) i
      cases i with
      | zero =>
          have hnone : value? ⟨numbered (index + 1) columns⟩ index key = none :=
            value?_eq_none key fun c hc hsame => by
              have hle := le_of_mem_numbered c hc
              omega
          cases column with
          | none => exact hnone
          | some values =>
              rw [Nat.add_zero, numbered, value?_cons, hnone, if_pos rfl]
              rfl
      | succ i =>
          have hposition : index + (i + 1) = index + 1 + i := by omega
          rw [hposition]
          cases column with
          | none => exact hrest i
          | some values =>
              have hother : index ≠ index + 1 + i := by omega
              rw [numbered, value?_cons, hrest, if_neg hother, Option.or_none]
              rfl

end CommonTable

namespace Column

/-- The own value of a record in a common-data column is the last one under its key. -/
def commonValue (key : UInt32) : Column → Option UInt32
  | common _ entries => KeyedWord.lookup? entries key
  | _ => none

def commonEntries? : Column → Option (List KeyedWord)
  | common _ entries => some entries
  | _ => none

theorem commonColumns_eq_numbered (index : Nat) (columns : List Column) :
    commonColumns index columns = CommonTable.numbered index (columns.map commonEntries?) := by
  induction columns generalizing index with
  | nil => rfl
  | cons column columns ih =>
      cases column with
      | common default entries =>
          rw [commonColumns, ih]
          rfl
      | _ => exact ih (index + 1)

theorem value?_commonColumns {index i : Nat} {columns : List Column} {column : Column}
    (h : columns[i]? = some column) (key : UInt32) :
    CommonTable.value? ⟨commonColumns index columns⟩ (index + i) key =
      column.commonValue key := by
  rw [commonColumns_eq_numbered, CommonTable.value?_numbered, List.getElem?_map, h]
  cases column <;> rfl

end Column

end ClientTable
