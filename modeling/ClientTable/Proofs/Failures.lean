import ClientTable.Proofs.Opening

/-!
What can go wrong and what cannot. Some errors are about nothing in a file: they say that one part
of the decoder has not prepared what another part asks for. Opening a file never fails with one of
them, whatever the file holds; one lemma for each reader carries this along.
-/

namespace ClientTable

/-- Faults that would mean that the decoder has lost track of its own tables. -/
def Fault.isInternal : Fault → Bool
  | missingRecords _ | missingOffsetMap _ | missingMapping _ | missingKey _ | missingDescriptor _
  | missingValue => true
  | _ => false

/-- Errors that would mean that the decoder has lost track of its own tables, or that it asks for
what the file cannot have. -/
def Error.isInternal : Error → Bool
  | unsupported _ => true
  | invalid fault => fault.isInternal
  | _ => false

/-- Errors that say something about the file or the stream. -/
abbrev Error.IsExternal (e : Error) : Prop :=
  e.isInternal = false

namespace Attempt

variable {σ τ α β : Type} {E : Error → Prop}

/-- Whatever the outcome fails with satisfies the predicate. -/
def ThrowsOnly (E : Error → Prop) (x : Except Error α) : Prop :=
  ∀ e, x = .error e → E e

/-- Whatever a computation fails with satisfies the predicate. -/
def FailsOnly (E : Error → Prop) (m : Attempt σ α) : Prop :=
  ∀ s, ThrowsOnly E (m.on s).1

theorem FailsOnly.mono {F : Error → Prop} {m : Attempt σ α} (h : FailsOnly E m)
    (hweaker : ∀ e, E e → F e) : FailsOnly F m :=
  fun s e he => hweaker e (h s e he)

theorem throwsOnly_ok (a : α) : ThrowsOnly E (.ok a) :=
  nofun

theorem throwsOnly_error {e : Error} (he : E e) : ThrowsOnly E (.error e : Except Error α) := by
  rintro _ ⟨⟩
  exact he

theorem ThrowsOnly.bind {x : Except Error α} {f : α → Except Error β} (hx : ThrowsOnly E x)
    (hf : ∀ a, x = .ok a → ThrowsOnly E (f a)) : ThrowsOnly E (x >>= f) := by
  intro e he
  rcases bind_eq_error.mp he with herror | ⟨a, ha, herror⟩
  · exact hx e herror
  · exact hf a ha e herror

theorem throwsOnly_mapM {f : α → Except Error β} (h : ∀ a, ThrowsOnly E (f a)) (items : List α) :
    ThrowsOnly E (items.mapM f) := by
  intro e he
  obtain ⟨a, _, herror⟩ := exists_of_mapM_error he
  exact h a e herror

theorem failsOnly_lift {x : Except Error α} (h : ThrowsOnly E x) :
    FailsOnly E (liftM x : Attempt σ α) :=
  fun _ => h

theorem failsOnly_pure (a : α) : FailsOnly E (pure a : Attempt σ α) :=
  fun _ => throwsOnly_ok a

theorem failsOnly_throw {e : Error} (he : E e) : FailsOnly E (throw e : Attempt σ α) :=
  fun _ => throwsOnly_error he

theorem failsOnly_throw_bind {e : Error} (he : E e) (f : α → Attempt σ β) :
    FailsOnly E ((throw e : Attempt σ α) >>= f) :=
  fun _ => throwsOnly_error he

/-- A computation fails in its first step or in those behind it. -/
theorem on_bind_eq_error {m : Attempt σ α} {f : α → Attempt σ β} {s : σ} {e : Error} :
    ((m >>= f).on s).1 = .error e ↔
      (m.on s).1 = .error e ∨ ∃ a t, m.on s = (.ok a, t) ∧ ((f a).on t).1 = .error e := by
  rw [on_bind]
  rcases m.on s with ⟨_ | a, t⟩
  · constructor
    · intro h
      cases h
      exact Or.inl rfl
    · rintro (h | ⟨_, _, h, _⟩)
      · cases h
        rfl
      · cases h
  · constructor
    · intro h
      exact Or.inr ⟨a, t, rfl, h⟩
    · rintro (h | ⟨_, _, h, hf⟩)
      · cases h
      · cases h
        exact hf

theorem FailsOnly.bind_of_ensures {m : Attempt σ α} {f : α → Attempt σ β} {Q : α → Prop}
    (hm : FailsOnly E m) (hq : Ensures m Q) (hf : ∀ a, Q a → FailsOnly E (f a)) :
    FailsOnly E (m >>= f) := by
  intro s e he
  rcases on_bind_eq_error.mp he with herror | ⟨a, t, ha, herror⟩
  · exact hm s e herror
  · exact hf a (hq s a (congrArg Prod.fst ha)) t e herror

theorem FailsOnly.bind {m : Attempt σ α} {f : α → Attempt σ β} (hm : FailsOnly E m)
    (hf : ∀ a, FailsOnly E (f a)) : FailsOnly E (m >>= f) :=
  hm.bind_of_ensures (Q := fun _ => True) (fun _ _ _ => trivial) fun a _ => hf a

theorem failsOnly_get_bind {f : σ → Attempt σ α} (hf : ∀ s, FailsOnly E (f s)) :
    FailsOnly E (get >>= f) :=
  fun s => hf s s

theorem failsOnly_modify (f : σ → σ) : FailsOnly E (modify f) :=
  fun _ => throwsOnly_ok _

theorem FailsOnly.focus {part : σ → τ} {put : τ → σ → σ} {m : Attempt τ α} (hm : FailsOnly E m) :
    FailsOnly E (m.focus part put) :=
  fun s => hm (part s)

theorem failsOnly_mapM {f : α → Attempt σ β} {items : List α}
    (h : ∀ a ∈ items, FailsOnly E (f a)) : FailsOnly E (items.mapM f) := by
  induction items with
  | nil =>
      rw [List.mapM_nil]
      exact failsOnly_pure []
  | cons a items ih =>
      rw [List.mapM_cons]
      refine (h a (List.mem_cons_self ..)).bind fun b => ?_
      exact (ih fun c hc => h c (List.mem_cons_of_mem _ hc)).bind fun bs => failsOnly_pure _

end Attempt

open Attempt

namespace Parse

variable {α : Type}

theorem failsOnly_take (count : Nat) : FailsOnly Error.IsExternal (take count) := by
  intro input
  rcases Nat.lt_or_ge input.rest.length count with hlt | hle
  · rw [on_take_of_lt hlt]
    exact throwsOnly_error rfl
  · rw [on_take_of_le hle]
    exact throwsOnly_ok _

theorem failsOnly_number (width : Nat) : FailsOnly Error.IsExternal (number width) :=
  (failsOnly_take width).bind fun _ => failsOnly_pure _

theorem failsOnly_u8 : FailsOnly Error.IsExternal u8 :=
  (failsOnly_number 1).bind fun _ => failsOnly_pure _

theorem failsOnly_u16 : FailsOnly Error.IsExternal u16 :=
  (failsOnly_number 2).bind fun _ => failsOnly_pure _

theorem failsOnly_u32 : FailsOnly Error.IsExternal u32 :=
  (failsOnly_number 4).bind fun _ => failsOnly_pure _

theorem failsOnly_u64 : FailsOnly Error.IsExternal u64 :=
  (failsOnly_number 8).bind fun _ => failsOnly_pure _

theorem failsOnly_position : FailsOnly Error.IsExternal position :=
  failsOnly_get_bind fun _ => failsOnly_pure _

theorem failsOnly_many {item : Parse α} (h : FailsOnly Error.IsExternal item) (count : Nat) :
    FailsOnly Error.IsExternal (many item count) := by
  induction count with
  | zero => exact failsOnly_pure []
  | succ count ih => exact h.bind fun first => ih.bind fun others => failsOnly_pure _

theorem throwsOnly_decode {item : Parse α} (h : FailsOnly Error.IsExternal item) (bytes : Bytes) :
    ThrowsOnly Error.IsExternal (decode item bytes) :=
  h (Input.ofBytes bytes)

end Parse

open Parse

theorem Signature.failsOnly_parse : FailsOnly Error.IsExternal Signature.parse := by
  refine (failsOnly_take 4).bind fun magic => ?_
  cases Signature.ofMagic? magic with
  | some signature => exact failsOnly_pure signature
  | none => exact failsOnly_throw rfl

theorem SectionHeader.failsOnly_parse : FailsOnly Error.IsExternal SectionHeader.parse := by
  refine failsOnly_u64.bind fun _ => ?_
  iterate 7 refine failsOnly_u32.bind fun _ => ?_
  exact failsOnly_pure _

namespace Header

theorem failsOnly_parseBuild (h : Header) : FailsOnly Error.IsExternal h.parseBuild := by
  iterate 7 refine failsOnly_u32.bind fun _ => ?_
  exact failsOnly_pure _

theorem failsOnly_parseFlagged (h : Header) : FailsOnly Error.IsExternal h.parseFlagged := by
  iterate 6 refine failsOnly_u32.bind fun _ => ?_
  exact failsOnly_u16.bind fun _ => failsOnly_u16.bind fun _ => failsOnly_pure _

theorem failsOnly_parseCommonSize (h : Header) : FailsOnly Error.IsExternal h.parseCommonSize := by
  iterate 2 refine failsOnly_u32.bind fun _ => ?_
  exact failsOnly_pure _

theorem failsOnly_parseStorageSizes (h : Header) :
    FailsOnly Error.IsExternal h.parseStorageSizes := by
  iterate 9 refine failsOnly_u32.bind fun _ => ?_
  exact failsOnly_pure _

theorem failsOnly_parseSectioned (h : Header) : FailsOnly Error.IsExternal h.parseSectioned := by
  iterate 5 refine failsOnly_u32.bind fun _ => ?_
  iterate 2 refine failsOnly_u16.bind fun _ => ?_
  iterate 7 refine failsOnly_u32.bind fun _ => ?_
  refine (failsOnly_many SectionHeader.failsOnly_parse _).bind fun sections => ?_
  dsimp only
  split
  · exact failsOnly_throw_bind (by rfl) _
  · exact failsOnly_pure _

theorem failsOnly_parseExtension (h : Header) : FailsOnly Error.IsExternal h.parseExtension := by
  unfold parseExtension
  cases h.signature with
  | wdbc => exact failsOnly_pure h
  | wdb2 => exact h.failsOnly_parseBuild
  | wdb3 => exact failsOnly_throw rfl
  | wdb4 => exact failsOnly_throw rfl
  | wdb5 => exact h.failsOnly_parseFlagged
  | wdb6 => exact h.failsOnly_parseFlagged.bind failsOnly_parseCommonSize
  | wdc1 => exact h.failsOnly_parseFlagged.bind failsOnly_parseStorageSizes
  | wdc2 => exact h.failsOnly_parseSectioned

theorem failsOnly_parse (signature : Signature) :
    FailsOnly Error.IsExternal (parse signature) := by
  unfold parse
  split
  · exact failsOnly_throw_bind (by rfl) _
  · refine failsOnly_u32.bind fun recordCount => ?_
    split
    · exact failsOnly_pure none
    · iterate 3 refine failsOnly_u32.bind fun _ => ?_
      exact (failsOnly_parseExtension _).bind fun h => failsOnly_position.bind fun headerEnd =>
        failsOnly_pure _

/-- What every parsed header is: one of a version that can be read without help, in which the
oldest formats have no flags. -/
structure IsReadable (h : Header) : Prop where
  version : h.signature.needsClientMetadata = false
  unflagged : h.signature.hasFieldInfo = false → h.flags = .none

theorem ensures_isReadable_parseExtension (h : Header) (hflags : h.flags = .none) :
    Ensures h.parseExtension IsReadable := by
  unfold parseExtension
  have flagged {signature : Signature} {parsed : Header}
      (hversion : signature.needsClientMetadata = false) (hinfo : signature.hasFieldInfo = true)
      (hparsed : parsed.signature = signature) : parsed.IsReadable :=
    ⟨hparsed ▸ hversion, fun hnone => by rw [hparsed, hinfo] at hnone; cases hnone⟩
  cases hs : h.signature with
  | wdbc => exact ensures_pure ⟨by rw [hs]; rfl, fun _ => hflags⟩
  | wdb2 =>
      iterate 7 refine ensures_bind fun _ => ?_
      exact ensures_pure ⟨congrArg Signature.needsClientMetadata hs, fun _ => hflags⟩
  | wdb3 => exact ensures_throw _
  | wdb4 => exact ensures_throw _
  | wdb5 =>
      exact fun input parsed hok =>
        flagged rfl rfl ((h.ensures_parseFlagged input parsed hok).trans hs)
  | wdb6 =>
      refine h.ensures_parseFlagged.bind fun shared hshared input parsed hok => ?_
      exact flagged rfl rfl
        ((shared.ensures_parseCommonSize input parsed hok).trans (hshared.trans hs))
  | wdc1 =>
      refine h.ensures_parseFlagged.bind fun shared hshared input parsed hok => ?_
      exact flagged rfl rfl
        ((shared.ensures_parseStorageSizes input parsed hok).trans (hshared.trans hs))
  | wdc2 =>
      iterate 14 refine ensures_bind fun _ => ?_
      refine ensures_bind fun sections => ?_
      dsimp only
      split
      · exact ensures_throw_bind _ _
      · exact ensures_pure (flagged rfl rfl hs)

theorem IsReadable.withTotalFieldCount {h : Header} (hreadable : h.IsReadable) :
    h.withTotalFieldCount.IsReadable := by
  unfold Header.withTotalFieldCount
  split
  · exact ⟨hreadable.version, hreadable.unflagged⟩
  · exact hreadable

theorem ensures_isReadable (signature : Signature) :
    Ensures (parse signature) fun header => ∀ h, header = some h → h.IsReadable := by
  unfold parse
  split
  · exact ensures_throw_bind _ _
  · refine ensures_bind fun recordCount => ?_
    split
    · exact ensures_pure nofun
    · iterate 3 refine ensures_bind fun _ => ?_
      refine (ensures_isReadable_parseExtension _ rfl).bind fun h hreadable => ?_
      refine ensures_bind fun headerEnd => ensures_pure ?_
      rintro _ ⟨⟩
      exact ⟨hreadable.withTotalFieldCount.version, hreadable.withTotalFieldCount.unflagged⟩

end Header

namespace Layout

theorem throwsOnly_length (h : Header) (start : Nat) (extent : Extent) :
    ThrowsOnly Error.IsExternal (extent.length h start) := by
  cases extent with
  | bytes count => exact throwsOnly_ok count
  | upTo stop =>
      unfold Extent.length
      dsimp only
      split
      · exact throwsOnly_error rfl
      · exact throwsOnly_ok _
  | perId size =>
      refine ThrowsOnly.bind ?_ fun count _ => throwsOnly_ok _
      unfold Extent.idCount
      split
      · exact throwsOnly_error rfl
      · exact throwsOnly_ok _

theorem throwsOnly_place (h : Header) (start : Nat) (requests : List Request) :
    ThrowsOnly Error.IsExternal (place h start requests) := by
  induction requests generalizing start with
  | nil => exact throwsOnly_ok []
  | cons request requests ih =>
      obtain ⟨kind, extent⟩ := request
      refine (throwsOnly_length h start extent).bind fun length _ => ?_
      dsimp only
      split
      · exact throwsOnly_error rfl
      · exact (ih (start + length)).bind fun segments _ => throwsOnly_ok _

theorem throwsOnly_planSections (h : Header) (index : Nat) (headers : List SectionHeader) :
    ThrowsOnly Error.IsExternal (planSections h index headers) := by
  induction headers generalizing index with
  | nil => exact throwsOnly_ok []
  | cons s headers ih =>
      refine ThrowsOnly.bind ?_ fun first _ => (ih (index + 1)).bind fun others _ => throwsOnly_ok _
      exact (throwsOnly_place h _ _).bind fun segments _ => throwsOnly_ok _

theorem throwsOnly_plan {h : Header} (hreadable : h.IsReadable) :
    ThrowsOnly Error.IsExternal (plan h) := by
  have hversion := hreadable.version
  unfold plan
  cases hs : h.signature with
  | wdb3 => rw [hs] at hversion; cases hversion
  | wdb4 => rw [hs] at hversion; cases hversion
  | wdc2 =>
      exact (throwsOnly_place h _ _).bind fun shared _ =>
        (throwsOnly_planSections h 0 h.sections).bind fun sections _ => throwsOnly_ok _
  | _ => exact (throwsOnly_place h _ _).bind fun segments _ => throwsOnly_ok _

end Layout

namespace FieldInfo

theorem failsOnly_parse : FailsOnly Error.IsExternal FieldInfo.parse :=
  failsOnly_u16.bind fun _ => failsOnly_u16.bind fun _ => failsOnly_pure _

theorem throwsOnly_bitSize (info : FieldInfo) : ThrowsOnly Error.IsExternal info.bitSize := by
  unfold bitSize
  split
  · exact throwsOnly_ok _
  · exact throwsOnly_error rfl

theorem throwsOnly_elements (h : Header) (index : Nat) (info : FieldInfo) (bitSize : Nat)
    (rest : List FieldInfo) : ThrowsOnly Error.IsExternal (info.elements h index bitSize rest) := by
  unfold elements
  cases rest with
  | nil =>
      dsimp only
      split <;> exact throwsOnly_ok _
  | cons next rest =>
      dsimp only
      split
      · exact throwsOnly_error rfl
      · exact throwsOnly_ok _

theorem throwsOnly_descriptors (h : Header) (index : Nat) (infos : List FieldInfo) :
    ThrowsOnly Error.IsExternal (descriptors h index infos) := by
  induction infos generalizing index with
  | nil => exact throwsOnly_ok []
  | cons info rest ih =>
      exact info.throwsOnly_bitSize.bind fun bitSize _ =>
        (info.throwsOnly_elements h index bitSize rest).bind fun count _ =>
          (ih (index + 1)).bind fun others _ => throwsOnly_ok _

end FieldInfo

namespace StorageInfo

theorem failsOnly_parse : FailsOnly Error.IsExternal StorageInfo.parse := by
  iterate 2 refine failsOnly_u16.bind fun _ => ?_
  iterate 5 refine failsOnly_u32.bind fun _ => ?_
  exact failsOnly_pure _

theorem throwsOnly_ofCode (code : UInt32) :
    ThrowsOnly Error.IsExternal (Compression.ofCode code) := by
  unfold Compression.ofCode
  split
  iterate 5 exact throwsOnly_ok _
  exact throwsOnly_error rfl

theorem throwsOnly_chunkAt (index start : Nat) (info : StorageInfo) :
    ThrowsOnly Error.IsExternal (info.chunkAt index start) := by
  unfold chunkAt
  split
  · exact throwsOnly_error rfl
  · exact throwsOnly_ok _

theorem throwsOnly_plainBits (index : Nat) (field? : Option FieldInfo) (info : StorageInfo) :
    ThrowsOnly Error.IsExternal (info.plainBits index field?) := by
  have hchecked (bits : Nat) : ThrowsOnly Error.IsExternal
      (if bits = 0 then throw (.invalid (.zeroWidth index)) else return bits) := by
    split
    · exact throwsOnly_error rfl
    · exact throwsOnly_ok _
  cases field? with
  | none => exact hchecked info.bitSize.toNat
  | some field => exact field.throwsOnly_bitSize.bind fun bits _ => hchecked bits

theorem throwsOnly_descriptor (index : Nat) (field? : Option FieldInfo) (offsets : ChunkOffsets)
    (info : StorageInfo) :
    ThrowsOnly Error.IsExternal (info.descriptor index field? offsets) := by
  refine (throwsOnly_ofCode info.code).bind fun compression _ => ?_
  cases compression with
  | plain => exact (info.throwsOnly_plainBits index field?).bind fun _ _ => throwsOnly_ok _
  | immediate => exact throwsOnly_ok _
  | common => exact (info.throwsOnly_chunkAt index _).bind fun _ _ => throwsOnly_ok _
  | pallet => exact (info.throwsOnly_chunkAt index _).bind fun _ _ => throwsOnly_ok _
  | palletArray => exact (info.throwsOnly_chunkAt index _).bind fun _ _ => throwsOnly_ok _

theorem throwsOnly_descriptors (fields : List FieldInfo) (index : Nat) (offsets : ChunkOffsets)
    (infos : List StorageInfo) :
    ThrowsOnly Error.IsExternal (descriptors fields index offsets infos) := by
  induction infos generalizing index offsets with
  | nil => exact throwsOnly_ok []
  | cons info rest ih =>
      exact (info.throwsOnly_descriptor index _ offsets).bind fun first _ =>
        (ih (index + 1) first.2).bind fun others _ => throwsOnly_ok _

end StorageInfo

namespace Source

theorem throwsOnly_block (source : Source) (start length : Nat) :
    ThrowsOnly Error.IsExternal (source.block start length) := by
  unfold block
  split
  · exact throwsOnly_error rfl
  · exact throwsOnly_ok _

theorem failsOnly_readSegment (source : Source) (segment : Segment) :
    FailsOnly Error.IsExternal (source.readSegment segment) :=
  fun _ => source.throwsOnly_block segment.start segment.length

theorem failsOnly_parse {α : Type} {item : Parse α} (h : FailsOnly Error.IsExternal item)
    (source : Source) : FailsOnly Error.IsExternal (source.parse item) :=
  fun _ => h _

theorem failsOnly_ofStream (stream : Stream) (copyToMemory : Bool) :
    FailsOnly Error.IsExternal (ofStream stream copyToMemory) := by
  unfold ofStream
  cases stream.seekFault with
  | some reason => exact failsOnly_throw_bind (by rfl) _
  | none =>
      cases copyToMemory with
      | true => exact (failsOnly_modify _).bind fun _ => failsOnly_pure _
      | false => exact failsOnly_pure _

end Source

namespace Descriptor

theorem throwsOnly_recordEnd (h : Header) : ThrowsOnly Error.IsExternal (recordEnd h) := by
  unfold recordEnd
  split
  · exact throwsOnly_error rfl
  · exact throwsOnly_ok _

theorem throwsOnly_commonColumns (h : Header) : ThrowsOnly Error.IsExternal (commonColumns h) :=
  (throwsOnly_recordEnd h).bind fun _ _ => throwsOnly_ok _

theorem throwsOnly_relationshipColumn (h : Header) :
    ThrowsOnly Error.IsExternal (relationshipColumn h) :=
  (throwsOnly_recordEnd h).bind fun _ _ => throwsOnly_ok _

theorem throwsOnly_checkWidth (h : Header) (descriptors : List Descriptor) :
    ThrowsOnly Error.IsExternal (checkWidth h descriptors) := by
  unfold checkWidth
  split
  · exact throwsOnly_ok _
  · dsimp only
    split
    · exact throwsOnly_error rfl
    · exact throwsOnly_ok _

theorem failsOnly_readFieldInfos (source : Source) (layout : Layout) :
    FailsOnly Error.IsExternal (readFieldInfos source layout) := by
  unfold readFieldInfos
  cases layout.findShared? .fieldInfo with
  | none => exact failsOnly_pure []
  | some segment =>
      exact (source.failsOnly_readSegment segment).bind fun block =>
        failsOnly_lift (throwsOnly_decode (failsOnly_many FieldInfo.failsOnly_parse _) block)

theorem failsOnly_readStorageInfos (source : Source) (layout : Layout) :
    FailsOnly Error.IsExternal (readStorageInfos source layout) := by
  unfold readStorageInfos
  cases layout.findShared? .fieldStorageInfo with
  | none => exact failsOnly_pure []
  | some segment =>
      dsimp only
      split
      · exact failsOnly_throw_bind (by rfl) _
      · exact (source.failsOnly_readSegment segment).bind fun block =>
          failsOnly_lift (throwsOnly_decode (failsOnly_many StorageInfo.failsOnly_parse _) block)

theorem failsOnly_readColumns (source : Source) {h : Header} (hreadable : h.IsReadable)
    (layout : Layout) (schema : Schema) :
    FailsOnly Error.IsExternal (readColumns source h layout schema) := by
  have hversion := hreadable.version
  have hinfos := failsOnly_readFieldInfos source layout
  unfold readColumns
  cases hs : h.signature with
  | wdb3 => rw [hs] at hversion; cases hversion
  | wdb4 => rw [hs] at hversion; cases hversion
  | wdbc => exact failsOnly_pure _
  | wdb2 => exact failsOnly_pure _
  | wdb5 =>
      exact hinfos.bind fun infos => failsOnly_lift (FieldInfo.throwsOnly_descriptors h 0 infos)
  | wdb6 =>
      exact hinfos.bind fun infos =>
        (failsOnly_lift (FieldInfo.throwsOnly_descriptors h 0 infos)).bind fun columns =>
          (failsOnly_lift (throwsOnly_commonColumns h)).bind fun _ => failsOnly_pure _
  | wdc1 =>
      exact hinfos.bind fun fields => (failsOnly_readStorageInfos source layout).bind fun infos =>
        failsOnly_lift (StorageInfo.throwsOnly_descriptors fields 0 _ infos)
  | wdc2 =>
      exact hinfos.bind fun fields => (failsOnly_readStorageInfos source layout).bind fun infos =>
        failsOnly_lift (StorageInfo.throwsOnly_descriptors fields 0 _ infos)

theorem failsOnly_readAll (source : Source) {h : Header} (hreadable : h.IsReadable)
    (layout : Layout) (schema : Schema) :
    FailsOnly Error.IsExternal (readAll source h layout schema) := by
  have hcheck (descriptors : List Descriptor) : FailsOnly Error.IsExternal (do
      checkWidth h descriptors
      return descriptors : Reading (List Descriptor)) :=
    (failsOnly_lift (throwsOnly_checkWidth h descriptors)).bind fun _ => failsOnly_pure _
  refine (failsOnly_readColumns source hreadable layout schema).bind fun columns => ?_
  split
  · exact (failsOnly_lift (throwsOnly_relationshipColumn h)).bind fun column =>
      (failsOnly_pure _).bind hcheck
  · exact (failsOnly_pure _).bind hcheck

end Descriptor

namespace Mapping

theorem throwsOnly_checkIndexField (schema : Schema) (column : Nat) :
    ThrowsOnly Error.IsExternal (checkIndexField schema column) := by
  unfold checkIndexField
  cases schema.fields[column]? with
  | none => exact throwsOnly_error rfl
  | some f =>
      dsimp only
      split
      · exact throwsOnly_error rfl
      · exact throwsOnly_ok _

theorem throwsOnly_assign (indexField? : Option Nat) (position : Nat) (fields : List Field)
    (runs : List SlotRun) :
    ThrowsOnly Error.IsExternal (assign indexField? position fields runs) := by
  induction fields generalizing position runs with
  | nil => exact throwsOnly_ok []
  | cons f fields ih =>
      unfold assign
      split
      · exact (ih (position + 1) runs).bind fun others _ => throwsOnly_ok _
      · split
        · exact throwsOnly_error rfl
        · exact (ih (position + 1) _).bind fun others _ => throwsOnly_ok _

theorem throwsOnly_build (schema : Schema) (descriptors : List Descriptor) (column : Nat)
    (hasIndexTable : Bool) :
    ThrowsOnly Error.IsExternal (build schema descriptors column hasIndexTable) := by
  cases hasIndexTable with
  | true =>
      exact (throwsOnly_checkIndexField schema column).bind fun _ _ =>
        (throwsOnly_assign _ _ _ _).bind fun fields _ => throwsOnly_ok _
  | false => exact (throwsOnly_assign _ _ _ _).bind fun fields _ => throwsOnly_ok _

end Mapping

namespace Metadata

theorem ensures_isReadable_parseStart :
    Ensures parseStart fun start => ∀ h, start.2 = some h → h.IsReadable :=
  ensures_bind fun signature =>
    (Header.ensures_isReadable signature).bind fun _ hheader => ensures_pure hheader

theorem failsOnly_readPopulated (source : Source) {h : Header} (hreadable : h.IsReadable)
    (schema : Schema) : FailsOnly Error.IsExternal (readPopulated source h schema) :=
  (failsOnly_lift (Layout.throwsOnly_plan hreadable)).bind fun layout =>
    (Descriptor.failsOnly_readAll source hreadable layout schema).bind fun _ =>
      (failsOnly_lift (throwsOnly_mapM (fun _ => Mapping.throwsOnly_build _ _ _ _) _)).bind
        fun _ => failsOnly_pure _

theorem failsOnly_read (source : Source) (schema : Schema) :
    FailsOnly Error.IsExternal (read source schema) := by
  have hstart : FailsOnly Error.IsExternal parseStart :=
    Signature.failsOnly_parse.bind fun signature =>
      (Header.failsOnly_parse signature).bind fun _ => failsOnly_pure _
  refine (source.failsOnly_parse hstart).bind_of_ensures
    (fun _ start hok => ensures_isReadable_parseStart _ start hok) ?_
  rintro ⟨signature, header⟩ hreadable
  cases header with
  | none => exact failsOnly_pure _
  | some h => exact failsOnly_readPopulated source (hreadable h rfl) schema

end Metadata

theorem Reader.failsOnly_ofStream (stream : Stream) (schema : Schema) (options : Options) :
    FailsOnly Error.IsExternal (ofStream stream schema options) :=
  (Source.failsOnly_ofStream stream options.copyToMemory).bind fun source =>
    (Metadata.failsOnly_read source schema).bind fun _ => failsOnly_pure _

end ClientTable
