import ClientTable.Proofs.InternalErrors

namespace ClientTable

open Attempt

namespace Descriptor

/-- The chunk of the pallet block that has the values of a field. -/
def palletChunk? (d : Descriptor) : Option Chunk :=
  match d.storage with
  | .pallet chunk | .palletArray chunk => some chunk
  | _ => none

/-- Each chunk of the pallet block ends before those of the later fields start. -/
def ChunksApart (descriptors : List Descriptor) : Prop :=
  descriptors.Pairwise fun d e => ∀ a ∈ d.palletChunk?, ∀ b ∈ e.palletChunk?, a.stop ≤ b.start

theorem chunksApart_of_forall_eq_none {descriptors : List Descriptor}
    (h : ∀ d ∈ descriptors, d.palletChunk? = none) : ChunksApart descriptors := by
  refine List.Pairwise.imp_of_mem (R := fun _ _ => True) ?_
    (List.pairwise_of_forall fun _ _ => trivial)
  intro d e hd _ _ a ha
  rw [h d hd] at ha
  cases ha

end Descriptor

namespace StorageInfo

open Descriptor

variable {info : StorageInfo} {index : Nat} {offsets after : ChunkOffsets}

/-- A chunk of the pallet block starts where the one before it has ended. -/
theorem palletChunk_of_descriptor {field? : Option FieldInfo} {d : Descriptor}
    (h : info.descriptor index field? offsets = .ok (d, after)) :
    offsets.pallet ≤ after.pallet ∧
      ∀ chunk ∈ d.palletChunk?, chunk.start = offsets.pallet ∧ chunk.stop = after.pallet := by
  obtain ⟨compression, -, h⟩ := bind_eq_ok.mp h
  have hstart {start : Nat} {chunk : Chunk} (hchunk : info.chunkAt index start = .ok chunk) :
      chunk.start = start := by
    unfold chunkAt at hchunk
    split at hchunk <;> cases hchunk
    rfl
  cases compression with
  | plain =>
      obtain ⟨bits, -, h⟩ := bind_eq_ok.mp h
      cases h
      exact ⟨Nat.le_refl _, nofun⟩
  | immediate =>
      cases h
      exact ⟨Nat.le_refl _, nofun⟩
  | common =>
      obtain ⟨chunk, -, h⟩ := bind_eq_ok.mp h
      cases h
      exact ⟨Nat.le_refl _, nofun⟩
  | pallet | palletArray =>
      obtain ⟨chunk, hchunk, h⟩ := bind_eq_ok.mp h
      cases h
      refine ⟨?_, ?_⟩
      · rw [← hstart hchunk]
        exact Nat.le_add_right ..
      · rintro _ ⟨⟩
        exact ⟨hstart hchunk, rfl⟩

theorem chunksApart_descriptors {fields : List FieldInfo} {infos : List StorageInfo}
    {descriptors : List Descriptor}
    (h : StorageInfo.descriptors fields index offsets infos = .ok descriptors) :
    ChunksApart descriptors ∧
      ∀ d ∈ descriptors, ∀ chunk ∈ d.palletChunk?, offsets.pallet ≤ chunk.start := by
  -- That no chunk starts before the running offset sets the first one apart from the others.
  induction infos generalizing index offsets descriptors with
  | nil =>
      cases h
      exact ⟨.nil, nofun⟩
  | cons info infos ih =>
      obtain ⟨⟨first, after⟩, hfirst, h⟩ := bind_eq_ok.mp h
      obtain ⟨others, hothers, h⟩ := bind_eq_ok.mp h
      cases h
      obtain ⟨hle, hchunk⟩ := palletChunk_of_descriptor hfirst
      obtain ⟨hapart, hbehind⟩ := ih hothers
      refine ⟨.cons ?_ hapart, List.forall_mem_cons.mpr ⟨?_, ?_⟩⟩
      · intro d hd a ha b hb
        rw [(hchunk a ha).2]
        exact hbehind d hd b hb
      · intro chunk hc
        exact Nat.le_of_eq (hchunk chunk hc).1.symm
      · intro d hd chunk hc
        exact Nat.le_trans hle (hbehind d hd chunk hc)

end StorageInfo

namespace Descriptor

theorem palletChunk?_consecutive (offset : Nat) (fields : List Field) :
    ∀ d ∈ consecutive offset fields, d.palletChunk? = none := by
  induction fields generalizing offset with
  | nil => exact nofun
  | cons f fields ih => exact List.forall_mem_cons.mpr ⟨rfl, ih _⟩

theorem palletChunk?_fieldInfo {h : Header} {index : Nat} {infos : List FieldInfo}
    {descriptors : List Descriptor}
    (hdescriptors : FieldInfo.descriptors h index infos = .ok descriptors) :
    ∀ d ∈ descriptors, d.palletChunk? = none := by
  intro d hd
  rw [palletChunk?, (FieldInfo.plain_of_descriptors hdescriptors).2 d hd]

theorem palletChunk?_commonColumns {h : Header} {columns : List Descriptor}
    (hcolumns : commonColumns h = .ok columns) : ∀ d ∈ columns, d.palletChunk? = none := by
  obtain ⟨offset, -, hcolumns⟩ := bind_eq_ok.mp hcolumns
  cases hcolumns
  intro d hd
  rw [List.eq_of_mem_replicate hd]
  rfl

theorem palletChunk?_relationshipColumn {h : Header} {column : Descriptor}
    (hcolumn : relationshipColumn h = .ok column) : column.palletChunk? = none := by
  obtain ⟨offset, -, hcolumn⟩ := bind_eq_ok.mp hcolumn
  cases hcolumn
  rfl

theorem ChunksApart.concat {descriptors : List Descriptor} {d : Descriptor}
    (h : ChunksApart descriptors) (hd : d.palletChunk? = none) :
    ChunksApart (descriptors ++ [d]) := by
  apply List.pairwise_append.mpr
  refine ⟨h, List.pairwise_singleton _ d, ?_⟩
  intro _ _ last hlast a _ b hb
  rw [List.mem_singleton.mp hlast, hd] at hb
  cases hb

theorem ensures_readColumns_apart (source : Source) (h : Header) (layout : Layout)
    (schema : Schema) : Ensures (readColumns source h layout schema) ChunksApart := by
  unfold readColumns
  cases h.signature with
  | wdbc | wdb2 =>
      exact ensures_pure (chunksApart_of_forall_eq_none (palletChunk?_consecutive 0 _))
  | wdb3 | wdb4 => exact ensures_throw _
  | wdb5 =>
      refine ensures_bind fun infos => ensures_lift fun descriptors hdescriptors => ?_
      exact chunksApart_of_forall_eq_none (palletChunk?_fieldInfo hdescriptors)
  | wdb6 =>
      refine ensures_bind fun infos => ?_
      refine Ensures.bind (Q := fun columns => ∀ d ∈ columns, d.palletChunk? = none)
        (ensures_lift fun _ => palletChunk?_fieldInfo) fun columns hcolumns => ?_
      refine Ensures.bind (Q := fun common => ∀ d ∈ common, d.palletChunk? = none)
        (ensures_lift fun _ => palletChunk?_commonColumns) fun common hcommon => ?_
      apply ensures_pure
      apply chunksApart_of_forall_eq_none
      intro d hd
      exact (List.mem_append.mp hd).elim (hcolumns d) (hcommon d)
  | wdc1 | wdc2 =>
      refine ensures_bind fun fields => ensures_bind fun infos => ensures_lift ?_
      intro descriptors hdescriptors
      exact (StorageInfo.chunksApart_descriptors hdescriptors).1

theorem ensures_readAll_apart (source : Source) (h : Header) (layout : Layout) (schema : Schema) :
    Ensures (readAll source h layout schema) ChunksApart := by
  intro count descriptors hread
  obtain ⟨columns, hcolumns, hcompletes⟩ :=
    ensures_readAll (ensures_readColumns_apart source h layout schema) count descriptors hread
  cases hcompletes with
  | columns => exact hcolumns
  | related hlast => exact hcolumns.concat (palletChunk?_relationshipColumn hlast)

theorem ChunksApart.disjoint {descriptors : List Descriptor} (h : ChunksApart descriptors)
    {i j : Nat} {d e : Descriptor} {a b : Chunk} (hd : descriptors[i]? = some d)
    (he : descriptors[j]? = some e) (ha : d.palletChunk? = some a) (hb : e.palletChunk? = some b)
    (hij : i ≠ j) : a.stop ≤ b.start ∨ b.stop ≤ a.start := by
  obtain ⟨hi, rfl⟩ := List.getElem?_eq_some_iff.mp hd
  obtain ⟨hj, rfl⟩ := List.getElem?_eq_some_iff.mp he
  have happart := List.pairwise_iff_getElem.mp h
  rcases Nat.lt_or_gt_of_ne hij with hlt | hgt
  · exact Or.inl (happart i j hi hj hlt a ha b hb)
  · exact Or.inr (happart j i hj hi hgt b hb a ha)

end Descriptor

theorem Reader.ensures_chunksApart (stream : Stream) (schema : Schema) (options : Options) :
    Ensures (ofStream stream schema options) fun reader =>
      Descriptor.ChunksApart reader.metadata.descriptors := by
  refine ensures_bind fun source => Ensures.bind
    (Q := fun m => Descriptor.ChunksApart m.descriptors) ?_ fun m hm => ensures_pure hm
  refine ensures_bind fun ⟨signature, header⟩ => ?_
  cases header with
  | none => exact ensures_pure .nil
  | some h =>
      refine ensures_bind fun layout => ?_
      refine (Descriptor.ensures_readAll_apart source h layout schema).bind
        fun descriptors hdescriptors => ?_
      exact ensures_bind fun mappings => ensures_pure hdescriptors

def SharedTables.HasPalletOf (source : Source) (layout : Layout) (shared : SharedTables) : Prop :=
  match shared.pallet with
  | none => layout.findShared? .palletData = none
  | some pallet => ∃ segment, layout.findShared? .palletData = some segment ∧
      source.block segment.start segment.length = .ok pallet.bytes

theorem SharedTables.ensures_hasPalletOf (source : Source) {m : Metadata} {h : Header}
    (hheader : m.header = some h) :
    Ensures (SharedTables.read source m) (HasPalletOf source m.layout) := by
  unfold read
  rw [hheader]
  refine Ensures.bind (Q := fun pallet => ∀ common, HasPalletOf source m.layout ⟨pallet, common⟩)
    ?_ fun pallet hpallet => ensures_bind fun common => ensures_pure (hpallet common)
  unfold readPallet
  cases hsegment : m.layout.findShared? .palletData with
  | none => exact ensures_pure fun _ => hsegment
  | some segment =>
      have hread : Ensures (PalletTable.read source segment) fun pallet =>
          source.block segment.start segment.length = .ok pallet.bytes :=
        Ensures.bind (Q := fun bytes => source.block segment.start segment.length = .ok bytes)
          (fun _ _ hok => hok) fun _ hblock => ensures_pure hblock
      refine hread.bind fun pallet hblock => ensures_pure fun _ => ?_
      exact ⟨segment, hsegment, hblock⟩

namespace PalletTable

/-- The word at a position of the block. -/
def wordAt (t : PalletTable) (position : Nat) : UInt32 :=
  UInt32.ofNat (littleEndian ((t.bytes.drop position).take 4))

/-- As many bytes, and the same ones but for some places. -/
structure DiffersIn (places : Nat → Prop) (t u : PalletTable) : Prop where
  size : u.size = t.size
  bytes : ∀ position, ¬places position → u.bytes[position]? = t.bytes[position]?

theorem take_drop_congr {xs ys : Bytes} {start count : Nat}
    (h : ∀ i, start ≤ i → i < start + count → xs[i]? = ys[i]?) :
    (xs.drop start).take count = (ys.drop start).take count := by
  apply List.ext_getElem?
  intro i
  simp only [List.getElem?_take, List.getElem?_drop]
  split
  · exact h _ (by omega) (by omega)
  · rfl

theorem word_congr {t u : PalletTable} {chunk index : Nat} (hsize : u.size = t.size)
    (h : ∀ i, position chunk index ≤ i → i < position chunk index + 4 →
      u.bytes[i]? = t.bytes[i]?) : u.word chunk index = t.word chunk index := by
  unfold word
  rw [hsize, take_drop_congr h]

end PalletTable

namespace Descriptor

/-- Where an element stands among the words of its chunk, if its row has the given index. -/
def palletSlot (d : Descriptor) (stored element : Nat) : Nat :=
  match d.storage with
  | .palletArray _ => stored * d.cardinality + element
  | _ => stored

end Descriptor

/-- Whether the error is a fault of the file. -/
def Error.IsInvalid (e : Error) : Prop :=
  ∃ fault, e = .invalid fault

namespace RowContext

variable (c : RowContext) (index : Nat) (d : Descriptor) (e : Nat) (kind : FieldKind)

/-- The index that a row has for an element. -/
def storedIndex : Decode Nat :=
  match d.storage with
  | .palletArray _ => c.palletArrayIndex index d
  | _ => do return (← c.inlineWord d e false).toNat

def elementAt (chunk : Chunk) (slot : Nat) : Decode Scalar := do
  wordScalar (← (← c.palletTable).word chunk.start slot) kind

def lookUp (chunk : Chunk) (stored : Nat) : Decode Scalar :=
  match d.storage with
  | .palletArray _ =>
    if positionLimit ≤ d.palletSlot stored e then
      throw (.invalid (.palletIndexOverflow stored))
    else c.elementAt kind chunk (d.palletSlot stored e)
  | _ => c.elementAt kind chunk (d.palletSlot stored e)

variable {c index d e kind} {chunk : Chunk} {s t : RowState} {stored slot : Nat}
  {pallet other : PalletTable}

theorem element_eq_bind (hd : c.descriptors[index]? = some d)
    (hchunk : d.palletChunk? = some chunk) (e : Nat) (kind : FieldKind) (s : RowState) :
    (c.element index e kind).on s =
      (do c.lookUp d e kind chunk (← c.storedIndex index d e) : Decode Scalar).on s := by
  have hdescriptor : (liftM (c.descriptor index) : Decode Descriptor).on s = (.ok d, s) := by
    rw [descriptor, hd]
    rfl
  rw [element, on_bind_of_ok hdescriptor]
  unfold storedIndex lookUp elementAt Descriptor.palletSlot
  cases hstorage : d.storage with
  | pallet own =>
      rw [Descriptor.palletChunk?, hstorage] at hchunk
      cases hchunk
      simp only [bind_assoc, pure_bind]
  | palletArray own =>
      rw [Descriptor.palletChunk?, hstorage] at hchunk
      cases hchunk
      rfl
  | plain | immediate | common | relationship =>
      rw [Descriptor.palletChunk?, hstorage] at hchunk
      cases hchunk

theorem lookUp_eq_or : (∃ fault, c.lookUp d e kind chunk stored = throw (.invalid fault)) ∨
    c.lookUp d e kind chunk stored = c.elementAt kind chunk (d.palletSlot stored e) := by
  unfold lookUp
  split
  · split
    · exact Or.inl ⟨_, rfl⟩
    · exact Or.inr rfl
  · exact Or.inr rfl

theorem on_elementAt_of_none (hpallet : c.pallet = none) :
    (c.elementAt kind chunk slot).on t = (.error (.unsupported .palletWithoutBlock), t) := by
  unfold elementAt palletTable
  rw [hpallet]
  rfl

theorem on_elementAt_of_some (hpallet : c.pallet = some pallet) :
    (c.elementAt kind chunk slot).on t =
      if pallet.size < PalletTable.position chunk.start slot + 4 then
        (.error (.invalid (.palletOutside slot chunk.start pallet.size)), t)
      else (wordScalar (pallet.wordAt (PalletTable.position chunk.start slot)) kind).on t := by
  have htable : (liftM c.palletTable : Decode PalletTable).on t = (.ok pallet, t) := by
    rw [palletTable, hpallet]
    rfl
  rw [elementAt, on_bind_of_ok htable]
  unfold PalletTable.word
  split <;> rfl

theorem lookUp_congr (hpallet : c.pallet = some pallet)
    (hword : other.word chunk.start (d.palletSlot stored e) =
      pallet.word chunk.start (d.palletSlot stored e)) :
    lookUp { c with pallet := some other } d e kind chunk stored =
      c.lookUp d e kind chunk stored := by
  unfold lookUp elementAt palletTable
  rw [hpallet]
  simp only [pure_bind, liftM_pure, hword]

theorem failsOnly_inlineWord_isInvalid (c : RowContext) (d : Descriptor) (e : Nat) :
    FailsOnly Error.IsInvalid (c.inlineWord d e false) := by
  unfold inlineWord
  split
  · refine FailsOnly.focus fun r => ?_
    have hread := r.throwsOnly_readWordAt_invalid r.cursor d.bitSize false
    rw [BitRead.on_word]
    cases hword : r.readWordAt r.cursor d.bitSize false with
    | ok value => exact throwsOnly_ok value
    | error error =>
        rw [hword] at hread
        exact hread
  · exact failsOnly_get_bind fun s => failsOnly_lift (s.bits.throwsOnly_readWordAt_invalid _ _ _)

theorem failsOnly_storedIndex : FailsOnly Error.IsInvalid (c.storedIndex index d e) := by
  have hread : FailsOnly Error.IsInvalid (palletArrayIndex.readIndex c index d) :=
    (c.failsOnly_inlineWord_isInvalid d 0).bind fun _ => (failsOnly_modify _).bind fun _ =>
      failsOnly_pure _
  unfold storedIndex
  split
  · refine failsOnly_get_bind fun s => ?_
    split
    · split
      · exact failsOnly_pure _
      · exact hread
    · exact hread
  · exact (c.failsOnly_inlineWord_isInvalid d e).bind fun _ => failsOnly_pure _

/-- A position of the pallet block in the chunk of another field. -/
def InOtherChunk (c : RowContext) (index position : Nat) : Prop :=
  ∃ other d chunk, other ≠ index ∧ c.descriptors[other]? = some d ∧ d.palletChunk? = some chunk ∧
    chunk.start ≤ position ∧ position < chunk.stop

/-- What becomes of an element of a field with a chunk of the pallet block, from the state `s` of
the row on. An index that cannot be read, or one that is past the block, is a fault of the file. -/
structure ReadsPallet (c : RowContext) (index : Nat) (d : Descriptor) (chunk : Chunk) (e : Nat)
    (kind : FieldKind) (s : RowState) : Prop where
  unread : ∀ error t, (c.storedIndex index d e).on s = (.error error, t) →
    error.IsInvalid ∧ (c.element index e kind).on s = (.error error, t)
  blockless : ∀ stored t, (c.storedIndex index d e).on s = (.ok stored, t) → c.pallet = none →
    ∃ error, (c.element index e kind).on s = (.error error, t) ∧
      (error = .unsupported .palletWithoutBlock ∨ error.IsInvalid)
  /-- No look-up leads out of the block. -/
  inBlock : ∀ stored t pallet, (c.storedIndex index d e).on s = (.ok stored, t) →
    c.pallet = some pallet →
      (∃ error, error.IsInvalid ∧ (c.element index e kind).on s = (.error error, t)) ∨
        PalletTable.position chunk.start (d.palletSlot stored e) + 4 ≤ pallet.size ∧
          (c.element index e kind).on s =
            (wordScalar (pallet.wordAt (PalletTable.position chunk.start (d.palletSlot stored e)))
              kind).on t
  /-- One of the words of the chunk is what is looked up where the chunk has so many, and the chunks
  of other fields have nothing to do with it. -/
  inChunk : ∀ stored t pallet, (c.storedIndex index d e).on s = (.ok stored, t) →
    c.pallet = some pallet → d.palletSlot stored e < chunk.size / 4 →
      chunk.start ≤ PalletTable.position chunk.start (d.palletSlot stored e) ∧
        PalletTable.position chunk.start (d.palletSlot stored e) + 4 ≤ chunk.stop ∧
        ∀ other, pallet.DiffersIn (c.InOtherChunk index) other →
          (element { c with pallet := some other } index e kind).on s =
            (c.element index e kind).on s

theorem readsPallet (hapart : Descriptor.ChunksApart c.descriptors)
    (hd : c.descriptors[index]? = some d) (hchunk : d.palletChunk? = some chunk) (s : RowState) :
    c.ReadsPallet index d chunk e kind s := by
  have helement := element_eq_bind hd hchunk e kind s
  constructor
  · intro error t hstored
    refine ⟨failsOnly_storedIndex s error (congrArg Prod.fst hstored), ?_⟩
    rw [helement, on_bind_of_error hstored]
  · intro stored t hstored hpallet
    rw [helement, on_bind_of_ok hstored]
    rcases c.lookUp_eq_or with ⟨fault, hlookUp⟩ | hlookUp
    · rw [hlookUp]
      exact ⟨_, rfl, Or.inr ⟨fault, rfl⟩⟩
    · rw [hlookUp, on_elementAt_of_none hpallet]
      exact ⟨_, rfl, Or.inl rfl⟩
  · intro stored t pallet hstored hpallet
    rw [helement, on_bind_of_ok hstored]
    rcases c.lookUp_eq_or with ⟨fault, hlookUp⟩ | hlookUp
    · rw [hlookUp]
      exact Or.inl ⟨_, ⟨fault, rfl⟩, rfl⟩
    · rw [hlookUp, on_elementAt_of_some hpallet]
      split
      · exact Or.inl ⟨_, ⟨_, rfl⟩, rfl⟩
      · exact Or.inr ⟨by omega, rfl⟩
  · intro stored t pallet hstored hpallet hown
    have hstop : PalletTable.position chunk.start (d.palletSlot stored e) + 4 ≤ chunk.stop := by
      rw [PalletTable.position, Chunk.stop]
      omega
    refine ⟨Nat.le_add_right .., hstop, fun other hother => ?_⟩
    have hword : other.word chunk.start (d.palletSlot stored e) =
        pallet.word chunk.start (d.palletSlot stored e) := by
      refine PalletTable.word_congr hother.size fun i hle hlt => hother.bytes i ?_
      rintro ⟨j, f, strange, hne, hf, hstrange, hfirst, hlast⟩
      have hdisjoint := hapart.disjoint hd hf hchunk hstrange hne.symm
      have hstart : chunk.start ≤ i := Nat.le_trans (Nat.le_add_right ..) hle
      omega
    have helement' := element_eq_bind (c := { c with pallet := some other }) hd hchunk e kind s
    have hstored' : (storedIndex { c with pallet := some other } index d e).on s =
        (.ok stored, t) := hstored
    rw [helement', on_bind_of_ok hstored', lookUp_congr hpallet hword, helement,
      on_bind_of_ok hstored]

end RowContext

namespace Reader

variable {stream : Stream} {schema : Schema} {options : Options} {reader : Reader}
  {records : Records} {count count' : Nat} {h : Header}

/-- In every row of a file that opens, a field with a chunk of the pallet block is read from the
pallet block of the file, and from its own chunk as far as that goes. -/
theorem readsPallet_of_open (hopen : ((ofStream stream schema options).on count).1 = .ok reader)
    (hheader : reader.metadata.header = some h)
    (hrecords : (reader.records.on count').1 = .ok records) {index : Nat} {d : Descriptor}
    {chunk : Chunk} (hd : reader.metadata.descriptors[index]? = some d)
    (hchunk : d.palletChunk? = some chunk) :
    records.shared.HasPalletOf reader.source reader.metadata.layout ∧
      ∀ (s : Section) (row : Row) (e : Nat) (kind : FieldKind) (state : RowState),
        (s.context reader.metadata records.shared row).ReadsPallet index d chunk e kind state := by
  have hapart := ensures_chunksApart stream schema options count reader hopen
  have hshared := Records.shared_of_start hrecords
  refine ⟨SharedTables.ensures_hasPalletOf reader.source hheader 0 records.shared hshared, ?_⟩
  intro s row e kind state
  exact RowContext.readsPallet hapart hd hchunk state

/-- One record of two fields, which have one word each in the pallet block. The index of the first
field is the number of its words. -/
def twoChunks (word : UInt32) : Bytes :=
  wordFile .wdc1 [1, 2, 4, 0, 0, 0, 0, 0, 0, 0, 0, 2, 0, 0, 0, 0, 48, 0, 8, 0, 0x18, 0x10018, 1,
    0x80000, 4, 3, 0, 0, 0, 0x80008, 4, 3, 0, 0, 0, 10, word]

def twoChunksSchema : Schema :=
  ⟨[.scalar "a" .u32, .scalar "b" .u32]⟩

def twoChunksDescriptors : List Descriptor :=
  [⟨0, 8, 1, .pallet ⟨0, 4⟩⟩, ⟨8, 8, 1, .pallet ⟨4, 4⟩⟩]

theorem readsPallet_twoChunks :
    ∃ reader records h, ((ofStream ⟨twoChunks 20, 0, none⟩ twoChunksSchema .default).on 0).1 =
        .ok reader ∧ reader.metadata.header = some h ∧ (reader.records.on 0).1 = .ok records ∧
      records.shared.HasPalletOf reader.source reader.metadata.layout ∧
      ∀ (s : Section) (row : Row) (state : RowState),
        (s.context reader.metadata records.shared row).ReadsPallet 1
          ⟨8, 8, 1, .pallet ⟨4, 4⟩⟩ ⟨4, 4⟩ 0 .u32 state := by
  have hrun : ∃ f ∈ firstRecord? (twoChunks 20) twoChunksSchema,
      f.reader.metadata.descriptors = twoChunksDescriptors := by
    decide +kernel
  obtain ⟨f, hf, hdescriptors⟩ := hrun
  obtain ⟨hopen, hrecords, hrecord⟩ := FirstRecord.hasRecord hf
  have hd : f.reader.metadata.descriptors[1]? = some ⟨8, 8, 1, .pallet ⟨4, 4⟩⟩ := by
    rw [hdescriptors]
    rfl
  obtain ⟨hpallet, hreads⟩ := readsPallet_of_open hopen hrecord.isHeader hrecords hd rfl
  exact ⟨f.reader, f.records, f.header, hopen, hrecord.isHeader, hrecords, hpallet,
    fun s row state => hreads s row 0 .u32 state⟩

/-- An element whose four bytes are in the chunk of its field, or that cannot be read by a fault of
the file. -/
def StaysInChunk (c : RowContext) (index : Nat) (d : Descriptor) (chunk : Chunk) (e : Nat)
    (kind : FieldKind) (s : RowState) : Prop :=
  ∀ stored t, (c.storedIndex index d e).on s = (.ok stored, t) →
    (chunk.start ≤ PalletTable.position chunk.start (d.palletSlot stored e) ∧
      PalletTable.position chunk.start (d.palletSlot stored e) + 4 ≤ chunk.stop) ∨
      ∃ error, error.IsInvalid ∧ ((c.element index e kind).on s).1 = .error error

/-- An index past the chunk of its field leads into the next one, whose word is then the value of
both fields; and a file may have no block at all. -/
theorem not_staysInChunk :
    (∃ f ∈ firstRecord? (twoChunks 20) twoChunksSchema,
      ¬StaysInChunk (f.opened.context f.reader.metadata f.records.shared f.row) 0
        ⟨0, 8, 1, .pallet ⟨0, 4⟩⟩ ⟨0, 4⟩ 0 .u32 (.start f.data f.opened.strings) ∧
      f.base.values.map Value.toWord? = [some 20, some 20]) ∧
    (∃ f ∈ firstRecord? (twoChunks 21) twoChunksSchema,
      f.base.values.map Value.toWord? = [some 21, some 21]) ∧
    firstPoll? (oneField 3) ⟨[.scalar "id" .u32]⟩ =
      some [some (.error (.unsupported .palletWithoutBlock))] := by
  refine ⟨?_, by decide +kernel, by decide +kernel⟩
  have hrun : ∃ f ∈ firstRecord? (twoChunks 20) twoChunksSchema,
      f.base.values.map Value.toWord? = [some 20, some 20] ∧
      (((f.opened.context f.reader.metadata f.records.shared f.row).storedIndex 0
        ⟨0, 8, 1, .pallet ⟨0, 4⟩⟩ 0).on (.start f.data f.opened.strings)).1 = .ok 1 ∧
      (((f.opened.context f.reader.metadata f.records.shared f.row).element 0 0 .u32).on
        (.start f.data f.opened.strings)).1.toOption.isSome := by
    decide +kernel
  obtain ⟨f, hf, hvalues, hstored, hread⟩ := hrun
  refine ⟨f, hf, fun hstays => ?_, hvalues⟩
  rcases hstays 1 _ (Prod.ext hstored rfl) with hinside | ⟨error, -, herror⟩
  · revert hinside
    decide
  · rw [herror] at hread
    cases hread

end Reader

end ClientTable
