import ClientTable.Proofs.Columns

namespace ClientTable

open Attempt

def Compression.code : Compression → UInt32
  | plain => 0
  | immediate => 1
  | common => 2
  | pallet => 3
  | palletArray => 4

theorem Compression.ofCode_of_code {c : Compression} {code : UInt32} (h : code = c.code) :
    ofCode code = .ok c := by
  subst h
  cases c <;> rfl

/-- Whether a position of the block is in the chunk. -/
def Chunk.covers (c : Chunk) (position : Nat) : Bool :=
  decide (c.start ≤ position ∧ position < c.stop)

/-- The blocks outside of the records that are cut into chunks. -/
inductive ChunkBlock where
  | pallet
  | common
  deriving DecidableEq, Repr

/-- The block that fields stored this way have a chunk of. -/
def Compression.block? : Compression → Option ChunkBlock
  | plain | immediate => none
  | common => some .common
  | pallet | palletArray => some .pallet

namespace ChunkBlock

/-- The size of the chunk that an entry has in the block. -/
def size? (block : ChunkBlock) (info : StorageInfo) : Option Nat :=
  match block with
  | pallet => if info.code = 3 ∨ info.code = 4 then some info.chunkSize.toNat else none
  | common => if info.code = 2 then some info.chunkSize.toNat else none

def taken (block : ChunkBlock) (info : StorageInfo) : Nat :=
  (block.size? info).getD 0

/-- The chunk that a stored field has in the block. -/
def chunk? (block : ChunkBlock) (d : Descriptor) : Option Chunk :=
  match block, d.storage with
  | pallet, .pallet chunk | pallet, .palletArray chunk | common, .common _ chunk => some chunk
  | _, _ => none

/-- Where the next chunk of the block starts. -/
def next (block : ChunkBlock) (offsets : ChunkOffsets) : Nat :=
  match block with
  | pallet => offsets.pallet
  | common => offsets.common

@[simp]
theorem next_zero (block : ChunkBlock) : block.next ⟨0, 0⟩ = 0 := by
  cases block <;> rfl

/-- What entries have in the block if their chunks stand back to back, the first at `start`. -/
def chunks (block : ChunkBlock) : (start : Nat) → List StorageInfo → List (Option Chunk)
  | _, [] => []
  | start, info :: infos =>
    (block.size? info).map (Chunk.mk start) :: chunks block (start + block.taken info) infos

/-- The number of bytes that entries take up in the block. -/
def sum (block : ChunkBlock) (infos : List StorageInfo) : Nat :=
  total (infos.filterMap block.size?)

theorem size?_of_code {info : StorageInfo} {c : Compression} (hc : info.code = c.code)
    (block : ChunkBlock) :
    block.size? info = if c.block? = some block then some info.chunkSize.toNat else none := by
  unfold size?
  rw [hc]
  cases block <;> cases c <;> rfl

theorem sum_cons (block : ChunkBlock) (info : StorageInfo) (infos : List StorageInfo) :
    block.sum (info :: infos) = block.taken info + block.sum infos := by
  unfold sum taken
  rw [List.filterMap_cons]
  cases block.size? info <;> simp

theorem length_chunks (block : ChunkBlock) (start : Nat) (infos : List StorageInfo) :
    (block.chunks start infos).length = infos.length := by
  induction infos generalizing start with
  | nil => rfl
  | cons info infos ih => rw [chunks, List.length_cons, ih, List.length_cons]

theorem getElem?_chunks (block : ChunkBlock) (start : Nat) {infos : List StorageInfo} {i : Nat}
    {info : StorageInfo} (h : infos[i]? = some info) :
    (block.chunks start infos)[i]? =
      some ((block.size? info).map (Chunk.mk (start + block.sum (infos.take i)))) := by
  induction infos generalizing start i with
  | nil => cases h
  | cons first infos ih =>
      cases i with
      | zero =>
          cases h
          rfl
      | succ i =>
          rw [List.take_succ_cons, sum_cons, ← Nat.add_assoc]
          exact ih _ h

theorem filterMap_chunks_cons (block : ChunkBlock) (start : Nat) (info : StorageInfo)
    (infos : List StorageInfo) :
    (block.chunks start (info :: infos)).filterMap id =
      ((block.size? info).map (Chunk.mk start)).toList ++
        (block.chunks (start + block.taken info) infos).filterMap id := by
  rw [chunks, List.filterMap_cons]
  cases block.size? info <;> rfl

theorem pairwise_chunks (block : ChunkBlock) (start : Nat) (infos : List StorageInfo) :
    (∀ chunk ∈ (block.chunks start infos).filterMap id, start ≤ chunk.start) ∧
      ((block.chunks start infos).filterMap id).Pairwise fun a b => a.stop ≤ b.start := by
  induction infos generalizing start with
  | nil => exact ⟨nofun, .nil⟩
  | cons info infos ih =>
      obtain ⟨hbehind, hordered⟩ := ih (start + block.taken info)
      rw [filterMap_chunks_cons]
      unfold taken at hbehind hordered ⊢
      cases hsize : block.size? info with
      | none =>
          rw [hsize] at hbehind hordered
          exact ⟨hbehind, hordered⟩
      | some size =>
          rw [hsize] at hbehind hordered
          refine ⟨List.forall_mem_cons.mpr ⟨Nat.le_refl start, fun chunk hchunk => ?_⟩,
            List.pairwise_cons.mpr ⟨hbehind, hordered⟩⟩
          exact Nat.le_trans (Nat.le_add_right ..) (hbehind chunk hchunk)

theorem countP_covers_chunks (block : ChunkBlock) (start : Nat) (infos : List StorageInfo)
    (position : Nat) :
    ((block.chunks start infos).filterMap id).countP (fun chunk => chunk.covers position) =
      if start ≤ position ∧ position < start + block.sum infos then 1 else 0 := by
  -- A chunk covers its own stretch of the sum, and those behind it the rest.
  induction infos generalizing start with
  | nil =>
      rw [if_neg (by rw [sum, List.filterMap_nil, total_nil]; omega)]
      rfl
  | cons info infos ih =>
      rw [filterMap_chunks_cons, List.countP_append, ih, sum_cons]
      unfold taken
      cases block.size? info with
      | none => simp
      | some size =>
          have hcovers : (Chunk.mk start size).covers position = true ↔
              start ≤ position ∧ position < start + size := decide_eq_true_iff
          simp only [Option.map_some, Option.toList_some, List.countP_singleton, hcovers,
            Option.getD_some]
          split <;> split <;> split <;> omega

end ChunkBlock

namespace StorageInfo

/-- An entry with a way of storing, and with a width where it needs one. -/
structure IsSound (field? : Option FieldInfo) (info : StorageInfo) : Prop where
  known : ∃ c : Compression, info.code = c.code
  width : info.code = 0 →
    match field? with
    | some field => 1 ≤ field.declaredBits ∧ field.declaredBits ≤ 64
    | none => info.bitSize ≠ 0

/-- Sound entries, whose field info starts at `index`. -/
def AreSound (fields : List FieldInfo) (index : Nat) (infos : List StorageInfo) : Prop :=
  ∀ (i : Nat) (info : StorageInfo), infos[i]? = some info → info.IsSound fields[index + i]?

theorem areSound_cons {fields : List FieldInfo} {index : Nat} {info : StorageInfo}
    {infos : List StorageInfo} : AreSound fields index (info :: infos) ↔
      info.IsSound fields[index]? ∧ AreSound fields (index + 1) infos := by
  constructor
  · intro h
    refine ⟨h 0 info rfl, fun i other hother => ?_⟩
    rw [Nat.add_right_comm]
    exact h (i + 1) other hother
  · rintro ⟨hinfo, hinfos⟩ (_ | i) other hother
    · cases hother
      exact hinfo
    · have hrest := hinfos i other hother
      rwa [Nat.add_right_comm] at hrest

theorem IsSound.exists_plainBits {field? : Option FieldInfo} {info : StorageInfo}
    (h : info.IsSound field?) (hplain : info.code = 0) (index : Nat) :
    ∃ bits, info.plainBits index field? = .ok bits := by
  have hwidth := h.width hplain
  cases field? with
  | none =>
      have hne : info.bitSize.toNat ≠ 0 := fun hzero => hwidth (UInt16.toNat_inj.mp hzero)
      exact ⟨_, if_neg hne⟩
  | some field =>
      have hbits : field.bitSize = .ok field.declaredBits.toNat := if_pos hwidth
      have hne : field.declaredBits.toNat ≠ 0 := by
        dsimp only at hwidth
        omega
      exact ⟨_, bind_eq_ok.mpr ⟨_, hbits, if_neg hne⟩⟩

section

variable {info : StorageInfo} {field? : Option FieldInfo} {offsets : ChunkOffsets}

theorem chunkAt_of_le {start : Nat} (h : wordLimit ≤ start + info.chunkSize.toNat) (index : Nat) :
    info.chunkAt index start = .error (.invalid (.chunkPastLimit index)) :=
  if_pos h

/-- Where the next chunks start behind that of an entry, if it ends below 4 GiB. -/
theorem IsSound.exists_descriptor (hsound : info.IsSound field?) (index : Nat)
    (hfits : ∀ block : ChunkBlock, block.next offsets + block.taken info < wordLimit) :
    ∃ d after, info.descriptor index field? offsets = .ok (d, after) ∧ ∀ block : ChunkBlock,
      block.chunk? d = (block.size? info).map (Chunk.mk (block.next offsets)) ∧
        block.next after = block.next offsets + block.taken info := by
  obtain ⟨c, hc⟩ := hsound.known
  have hsize : info.chunkSize = UInt32.ofNat info.chunkSize.toNat := UInt32.ofNat_toNat.symm
  simp only [ChunkBlock.taken, ChunkBlock.size?_of_code hc] at hfits ⊢
  cases c with
  | plain =>
      obtain ⟨bits, hbits⟩ := hsound.exists_plainBits hc index
      refine ⟨_, _, descriptor_plain hc hbits, ?_⟩
      rintro (_ | _) <;> exact ⟨rfl, rfl⟩
  | immediate =>
      refine ⟨_, _, descriptor_immediate hc, ?_⟩
      rintro (_ | _) <;> exact ⟨rfl, rfl⟩
  | common =>
      refine ⟨_, _, descriptor_common hc (chunkAt_of_lt hsize (hfits .common)), ?_⟩
      rintro (_ | _) <;> exact ⟨rfl, rfl⟩
  | pallet =>
      refine ⟨_, _, descriptor_pallet hc (chunkAt_of_lt hsize (hfits .pallet)), ?_⟩
      rintro (_ | _) <;> exact ⟨rfl, rfl⟩
  | palletArray =>
      refine ⟨_, _, descriptor_palletArray hc (chunkAt_of_lt hsize (hfits .pallet)), ?_⟩
      rintro (_ | _) <;> exact ⟨rfl, rfl⟩

theorem descriptor_of_not_lt {c : Compression} (hc : info.code = c.code)
    {block : ChunkBlock} (hoffset : block.next offsets < wordLimit)
    (hlimit : wordLimit ≤ block.next offsets + block.taken info) (index : Nat) :
    info.descriptor index field? offsets = .error (.invalid (.chunkPastLimit index)) := by
  rw [ChunkBlock.taken, ChunkBlock.size?_of_code hc] at hlimit
  refine bind_eq_error.mpr (Or.inr ⟨c, Compression.ofCode_of_code hc, ?_⟩)
  split at hlimit
  case isFalse => exact absurd hlimit (Nat.not_le.mpr hoffset)
  case isTrue hblock =>
    have hchunk := chunkAt_of_le hlimit index
    cases c with
    | plain | immediate => cases hblock
    | common | pallet | palletArray =>
        cases hblock
        exact bind_eq_error.mpr (Or.inl hchunk)

end

section

variable {fields : List FieldInfo} {infos : List StorageInfo} {index : Nat}
  {offsets : ChunkOffsets}

theorem exists_descriptors (hsound : AreSound fields index infos)
    (hfits : ∀ block : ChunkBlock, block.next offsets + block.sum infos < wordLimit) :
    ∃ columns, descriptors fields index offsets infos = .ok columns ∧ ∀ block : ChunkBlock,
      columns.map block.chunk? = block.chunks (block.next offsets) infos := by
  induction infos generalizing index offsets with
  | nil => exact ⟨[], rfl, fun _ => rfl⟩
  | cons info infos ih =>
      obtain ⟨hinfo, hinfos⟩ := areSound_cons.mp hsound
      simp only [ChunkBlock.sum_cons, ← Nat.add_assoc] at hfits
      obtain ⟨d, after, hfirst, hd⟩ := hinfo.exists_descriptor index fun block =>
        Nat.lt_of_le_of_lt (Nat.le_add_right ..) (hfits block)
      obtain ⟨columns, hrest, hcolumns⟩ := ih hinfos fun block => (hd block).2 ▸ hfits block
      refine ⟨d :: columns, bind_eq_ok.mpr ⟨_, hfirst, bind_eq_ok.mpr ⟨_, hrest, rfl⟩⟩, ?_⟩
      intro block
      rw [List.map_cons, (hd block).1, hcolumns block, (hd block).2]
      rfl

/-- Where a block gets too large, the first entry that does not fit is refused. -/
theorem exists_chunkPastLimit (hsound : AreSound fields index infos)
    (hoffsets : ∀ block : ChunkBlock, block.next offsets < wordLimit) {block : ChunkBlock}
    (hlimit : wordLimit ≤ block.next offsets + block.sum infos) :
    ∃ i, descriptors fields index offsets infos = .error (.invalid (.chunkPastLimit i)) := by
  induction infos generalizing index offsets with
  | nil => exact absurd hlimit (Nat.not_le.mpr (hoffsets block))
  | cons info infos ih =>
      obtain ⟨hinfo, hinfos⟩ := areSound_cons.mp hsound
      by_cases hfits : ∀ block : ChunkBlock, block.next offsets + block.taken info < wordLimit
      case neg =>
        obtain ⟨c, hc⟩ := hinfo.known
        obtain ⟨other, hother⟩ := not_forall.mp hfits
        have hfirst : info.descriptor index fields[index]? offsets =
            .error (.invalid (.chunkPastLimit index)) :=
          descriptor_of_not_lt hc (hoffsets other) (Nat.not_lt.mp hother) index
        exact ⟨index, bind_eq_error.mpr (Or.inl hfirst)⟩
      case pos =>
        obtain ⟨d, after, hfirst, hd⟩ := hinfo.exists_descriptor index hfits
        rw [ChunkBlock.sum_cons, ← Nat.add_assoc, ← (hd block).2] at hlimit
        obtain ⟨i, hrest⟩ := ih hinfos (fun other => (hd other).2 ▸ hfits other) hlimit
        exact ⟨i, bind_eq_error.mpr (Or.inr ⟨_, hfirst, bind_eq_error.mpr (Or.inl hrest)⟩)⟩

theorem divides_small (hsound : AreSound fields 0 infos)
    (hsmall : ∀ block : ChunkBlock, block.sum infos ≤ 2 ^ 32 - 1) :
    ∃ columns, descriptors fields 0 ⟨0, 0⟩ infos = .ok columns ∧ ∀ block : ChunkBlock,
      columns.map block.chunk? = block.chunks 0 infos := by
  have hfits (block : ChunkBlock) : block.next ⟨0, 0⟩ + block.sum infos < wordLimit := by
    rw [ChunkBlock.next_zero, Nat.zero_add, wordLimit]
    exact Nat.lt_of_le_of_lt (hsmall block) (by decide)
  simpa only [ChunkBlock.next_zero] using exists_descriptors hsound hfits

theorem refuses_large (hsound : AreSound fields 0 infos) {block : ChunkBlock}
    (hlarge : 2 ^ 32 - 1 < block.sum infos) :
    ∃ i, descriptors fields 0 ⟨0, 0⟩ infos = .error (.invalid (.chunkPastLimit i)) := by
  have hoffsets (other : ChunkBlock) : other.next ⟨0, 0⟩ < wordLimit := by
    rw [ChunkBlock.next_zero]
    decide
  have hlimit : wordLimit ≤ block.next ⟨0, 0⟩ + block.sum infos := by
    rw [ChunkBlock.next_zero, Nat.zero_add, wordLimit]
    exact Nat.le_of_pred_lt hlarge
  exact exists_chunkPastLimit hsound hoffsets hlimit

end

/-- The same entry, but for a size that is that of no chunk. -/
def Resembles (info other : StorageInfo) : Prop :=
  ∃ size, other = { info with chunkSize := size } ∧
    ∀ block : ChunkBlock, block.size? other = block.size? info

theorem Resembles.descriptor_eq {info other : StorageInfo} (h : info.Resembles other)
    (hknown : ∃ c : Compression, info.code = c.code) (index : Nat) (field? : Option FieldInfo)
    (offsets : ChunkOffsets) :
    other.descriptor index field? offsets = info.descriptor index field? offsets := by
  obtain ⟨size, rfl, hsize⟩ := h
  obtain ⟨c, hc⟩ := hknown
  cases hblock : c.block? with
  | some block =>
      have hother : ({ info with chunkSize := size } : StorageInfo).code = c.code := hc
      have hsame := hsize block
      rw [block.size?_of_code hother, block.size?_of_code hc, if_pos hblock, if_pos hblock] at hsame
      have hkept : size = info.chunkSize := UInt32.toNat_inj.mp (Option.some.inj hsame)
      rw [hkept]
  | none =>
      unfold descriptor
      rw [Compression.ofCode_of_code hc]
      cases c with
      | plain | immediate => rfl
      | common | pallet | palletArray => cases hblock

theorem descriptors_of_resembles {fields : List FieldInfo} {index : Nat} {offsets : ChunkOffsets}
    {infos others : List StorageInfo} (hsound : AreSound fields index infos)
    (h : List.Forall₂ Resembles infos others) :
    descriptors fields index offsets others = descriptors fields index offsets infos := by
  induction h generalizing index offsets with
  | nil => rfl
  | cons hfirst _ ih =>
      obtain ⟨hinfo, hinfos⟩ := areSound_cons.mp hsound
      rw [descriptors, descriptors, hfirst.descriptor_eq hinfo.known]
      refine congrArg _ (funext fun result => ?_)
      exact congrArg (· >>= _) (ih hinfos)

end StorageInfo

/-- How entries cut a block into the chunks of stored fields. A chunk starts at the sum of the sizes
of those before it, and every position up to the sum of all sizes is in one chunk. -/
structure ChunkBlock.Divides (block : ChunkBlock) (infos : List StorageInfo)
    (columns : List Descriptor) : Prop where
  starts : ∀ (i : Nat) (info : StorageInfo), infos[i]? = some info →
    ∃ d, columns[i]? = some d ∧
      block.chunk? d = (block.size? info).map (Chunk.mk (block.sum (infos.take i)))
  ordered : (columns.filterMap block.chunk?).Pairwise fun a b => a.stop ≤ b.start
  covered : ∀ position, (columns.filterMap block.chunk?).countP (fun c => c.covers position) =
    if position < block.sum infos then 1 else 0

theorem ChunkBlock.divides_of_map {block : ChunkBlock} {infos : List StorageInfo}
    {columns : List Descriptor} (h : columns.map block.chunk? = block.chunks 0 infos) :
    block.Divides infos columns := by
  have hchunks : columns.filterMap block.chunk? = (block.chunks 0 infos).filterMap id := by
    rw [← h, List.filterMap_map, Function.id_comp]
  refine ⟨fun i info hinfo => ?_, ?_, fun position => ?_⟩
  · have hchunk := block.getElem?_chunks 0 hinfo
    rw [← h, List.getElem?_map, Nat.zero_add] at hchunk
    exact Option.map_eq_some_iff.mp hchunk
  · rw [hchunks]
    exact (block.pairwise_chunks 0 infos).2
  · rw [hchunks, countP_covers_chunks]
    simp only [Nat.zero_le, true_and, Nat.zero_add]

/-- The source has the field info and the storage info where the layout says. -/
structure Source.Describes (source : Source) (layout : Layout) (fields : List FieldInfo)
    (infos : List StorageInfo) : Prop where
  fields : source.Finds (layout.findShared? .fieldInfo) (fields.flatMap FieldInfo.bytes)
  infos : source.Finds (layout.findShared? .fieldStorageInfo) (infos.flatMap StorageInfo.bytes)

namespace Descriptor

variable {source : Source} {h : Header} {layout : Layout} {fields : List FieldInfo}
  {infos : List StorageInfo}

theorem on_readColumns_of_describes (hstorage : h.signature.hasStorageInfo = true)
    (hdescribes : source.Describes layout fields infos) (schema : Schema) (count : Nat) :
    ((readColumns source h layout schema).on count).1 =
      StorageInfo.descriptors fields 0 ⟨0, 0⟩ infos := by
  obtain ⟨u, hfields⟩ : ∃ u, (readFieldInfos source layout).on count = (.ok fields, u) :=
    ⟨_, Prod.ext (gives_readFieldInfos hdescribes.fields count trivial).1 rfl⟩
  obtain ⟨v, hinfos⟩ : ∃ v, (readStorageInfos source layout).on u = (.ok infos, v) :=
    ⟨_, Prod.ext (gives_readStorageInfos hdescribes.infos u trivial).1 rfl⟩
  unfold readColumns
  cases hsignature : h.signature with
  | wdc1 | wdc2 =>
      dsimp only
      rw [on_bind_of_ok hfields, on_bind_of_ok hinfos]
      rfl
  | _ =>
      rw [hsignature] at hstorage
      cases hstorage

/-- Sound entries can be described if and only if the sizes of the chunks in each block add up to
less than 4 GiB. There is one descriptor for each of them, and the chunks stand back to back in both
blocks. What an entry without a chunk gives as its size does not matter. These are the descriptors
of a file that has the entries. -/
theorem chunks_back_to_back (hsound : StorageInfo.AreSound fields 0 infos) :
    ((∃ columns, StorageInfo.descriptors fields 0 ⟨0, 0⟩ infos = .ok columns) ↔
      ∀ block : ChunkBlock, block.sum infos ≤ 2 ^ 32 - 1) ∧
    ((∃ block : ChunkBlock, 2 ^ 32 - 1 < block.sum infos) →
      ∃ i, StorageInfo.descriptors fields 0 ⟨0, 0⟩ infos =
        .error (.invalid (.chunkPastLimit i))) ∧
    (∀ columns, StorageInfo.descriptors fields 0 ⟨0, 0⟩ infos = .ok columns →
      columns.length = infos.length ∧ ∀ block : ChunkBlock, block.Divides infos columns) ∧
    (∀ others, List.Forall₂ StorageInfo.Resembles infos others →
      StorageInfo.descriptors fields 0 ⟨0, 0⟩ others =
        StorageInfo.descriptors fields 0 ⟨0, 0⟩ infos) ∧
    ∀ (source : Source) (h : Header) (layout : Layout) (schema : Schema) (count : Nat),
      h.signature.hasStorageInfo = true → source.Describes layout fields infos →
        ((readColumns source h layout schema).on count).1 =
          StorageInfo.descriptors fields 0 ⟨0, 0⟩ infos := by
  have hfits {columns : List Descriptor}
      (hcolumns : StorageInfo.descriptors fields 0 ⟨0, 0⟩ infos = .ok columns) :
      ∀ block : ChunkBlock, block.sum infos ≤ 2 ^ 32 - 1 := by
    intro block
    by_contra hlarge
    obtain ⟨i, hrefused⟩ := StorageInfo.refuses_large hsound (Nat.not_le.mp hlarge)
    rw [hcolumns] at hrefused
    cases hrefused
  refine ⟨⟨?_, ?_⟩, ?_, fun columns hcolumns => ?_, fun others hothers => ?_, ?_⟩
  · rintro ⟨columns, hcolumns⟩
    exact hfits hcolumns
  · intro hsmall
    obtain ⟨columns, hcolumns, -⟩ := StorageInfo.divides_small hsound hsmall
    exact ⟨columns, hcolumns⟩
  · rintro ⟨block, hlarge⟩
    exact StorageInfo.refuses_large hsound hlarge
  · obtain ⟨built, hbuilt, hchunks⟩ := StorageInfo.divides_small hsound (hfits hcolumns)
    rw [hcolumns] at hbuilt
    cases hbuilt
    refine ⟨?_, fun block => ChunkBlock.divides_of_map (hchunks block)⟩
    have hlength := congrArg List.length (hchunks .pallet)
    rwa [List.length_map, ChunkBlock.length_chunks] at hlength
  · exact StorageInfo.descriptors_of_resembles hsound hothers
  · intro source h layout schema count hstorage hdescribes
    exact on_readColumns_of_describes hstorage hdescribes schema count

/-- A number, a pair from the pallet block and two columns of common data, and two more fields from
the pallet block with a number between them. The entries of the numbers have a size as well. -/
def mixedEntries (spare : UInt32) : List StorageInfo :=
  [⟨0, 32, spare, 0, 0, 0, 0⟩, ⟨32, 4, 8, 4, 0, 4, 2⟩, ⟨36, 0, 16, 2, 9, 0, 0⟩,
    ⟨36, 4, 4, 3, 0, 4, 0⟩, ⟨40, 4, spare, 1, 0, 4, 0⟩, ⟨44, 4, 12, 3, 0, 4, 0⟩,
    ⟨48, 0, 8, 2, 7, 0, 0⟩]

/-- Two columns of common data that do not fit in the block together. -/
def largeEntries : List StorageInfo :=
  [⟨0, 0, 0xFFFFFFF0, 2, 0, 0, 0⟩, ⟨0, 0, 0xFFFFFFF0, 2, 0, 0, 0⟩]

def describing (infos : List StorageInfo) : Source :=
  .memory (infos.flatMap StorageInfo.bytes)

def onlyEntries (infos : List StorageInfo) : Layout :=
  ⟨[⟨.fieldStorageInfo, 0, 24 * infos.length⟩], []⟩

def describe (infos : List StorageInfo) : Except Error (List Descriptor) :=
  ((readColumns (describing infos) (.basic .wdc1 1 7 6 0) (onlyEntries infos) .empty).on 0).1

theorem chunks_back_to_back_mixedEntries :
    StorageInfo.AreSound [] 0 (mixedEntries 77) ∧ StorageInfo.AreSound [] 0 largeEntries ∧
      (∃ columns, describe (mixedEntries 77) = .ok columns ∧
        columns.map Descriptor.chunk =
          [.none, ⟨0, 8⟩, ⟨0, 16⟩, ⟨8, 4⟩, .none, ⟨12, 12⟩, ⟨16, 8⟩] ∧
        ∀ block : ChunkBlock, block.Divides (mixedEntries 77) columns) ∧
      StorageInfo.descriptors [] 0 ⟨0, 0⟩ (mixedEntries 0) = describe (mixedEntries 77) ∧
      ∃ i, describe largeEntries = .error (.invalid (.chunkPastLimit i)) := by
  have hcons {info : StorageInfo} {index : Nat} {infos : List StorageInfo} (c : Compression)
      (hc : info.code = c.code) (hne : info.code ≠ 0)
      (hinfos : StorageInfo.AreSound [] (index + 1) infos) :
      StorageInfo.AreSound [] index (info :: infos) :=
    StorageInfo.areSound_cons.mpr ⟨⟨⟨c, hc⟩, fun h => absurd h hne⟩, hinfos⟩
  have hmixed : StorageInfo.AreSound [] 0 (mixedEntries 77) := by
    refine StorageInfo.areSound_cons.mpr ⟨⟨⟨.plain, rfl⟩, ?_⟩, ?_⟩
    · exact fun _ => (by decide : (32 : UInt16) ≠ 0)
    · refine hcons .palletArray rfl (by decide) (hcons .common rfl (by decide) ?_)
      refine hcons .pallet rfl (by decide) (hcons .immediate rfl (by decide) ?_)
      exact hcons .pallet rfl (by decide) (hcons .common rfl (by decide) nofun)
  have hlarge : StorageInfo.AreSound [] 0 largeEntries :=
    hcons .common rfl (by decide) (hcons .common rfl (by decide) nofun)
  have hmixedFile (spare : UInt32) : (describing (mixedEntries spare)).Describes
      (onlyEntries (mixedEntries spare)) [] (mixedEntries spare) :=
    ⟨rfl, ⟨List.cons_ne_nil _ _, rfl, List.prefix_rfl⟩⟩
  have hlargeFile : (describing largeEntries).Describes (onlyEntries largeEntries) []
      largeEntries :=
    ⟨rfl, ⟨List.cons_ne_nil _ _, rfl, List.prefix_rfl⟩⟩
  have hresembles : List.Forall₂ StorageInfo.Resembles (mixedEntries 77) (mixedEntries 0) := by
    have hkept (info : StorageInfo) : info.Resembles info := ⟨info.chunkSize, rfl, fun _ => rfl⟩
    refine .cons ⟨0, rfl, ?_⟩ (.cons (hkept _) (.cons (hkept _) (.cons (hkept _)
      (.cons ⟨0, rfl, ?_⟩ (.cons (hkept _) (.cons (hkept _) .nil))))))
    · rintro (_ | _) <;> rfl
    · rintro (_ | _) <;> rfl
  have hcolumns : describe (mixedEntries 77) = .ok [⟨0, 32, 1, .plain false⟩,
      ⟨32, 4, 2, .palletArray ⟨0, 8⟩⟩, ⟨36, 0, 1, .common 9 ⟨0, 16⟩⟩, ⟨36, 4, 1, .pallet ⟨8, 4⟩⟩,
      ⟨40, 4, 1, .immediate false⟩, ⟨44, 4, 1, .pallet ⟨12, 12⟩⟩,
      ⟨48, 0, 1, .common 7 ⟨16, 8⟩⟩] := by
    decide +kernel
  obtain ⟨-, -, hdivides, hspare, hmixedRead⟩ := chunks_back_to_back hmixed
  obtain ⟨-, hrefuses, -, -, hlargeRead⟩ := chunks_back_to_back hlarge
  have hmixedRead : describe (mixedEntries 77) = _ := hmixedRead _ _ _ _ 0 rfl (hmixedFile 77)
  have hlargeRead : describe largeEntries = _ := hlargeRead _ _ _ _ 0 rfl hlargeFile
  refine ⟨hmixed, hlarge, ⟨_, hcolumns, rfl, ?_⟩, ?_, ?_⟩
  · exact (hdivides _ (hmixedRead ▸ hcolumns)).2
  · rw [hmixedRead]
    exact hspare _ hresembles
  · rw [hlargeRead]
    exact hrefuses ⟨.common, by decide⟩

end Descriptor

end ClientTable
