import ClientTable.Machine.Tables
import ClientTable.Proofs.Drives
import ClientTable.Proofs.Mirrors
import ClientTable.Proofs.Opening

namespace ClientTable.Machine

open Guarded

theorem entryCount_eq (block : Block) (length : Nat) {entrySize : Nat} (h : entrySize ≠ 0) :
    entryCount block length entrySize = liftM (block.entryCount length entrySize) := by
  unfold entryCount Block.entryCount
  rw [Checked.trap_bind (Checked.rem_of_ne h)]
  split
  · rw [Checked.trap_bind (Checked.sub_of_le (Nat.mod_le ..))]
    rfl
  · rw [Checked.div_of_ne h]
    rfl

theorem terminated?_eq_map (bytes : Bytes) :
    ClientTable.terminated? bytes = (bytes.findIdx? (· = 0)).map fun stop => bytes.take stop := by
  induction bytes with
  | nil => rfl
  | cons b bytes ih =>
      rw [ClientTable.terminated?, List.findIdx?_cons, ih]
      by_cases hb : b = 0
      · simp [hb]
      · simp [hb, Function.comp_def]

theorem terminated?_eq (bytes : Bytes) :
    terminated? bytes = pure (ClientTable.terminated? bytes) := by
  rw [terminated?_eq_map]
  unfold terminated?
  cases hstop : bytes.findIdx? (· = 0) with
  | none => rfl
  | some stop =>
      have hlt : stop < bytes.length := (List.findIdx?_eq_some_iff_getElem.mp hstop).1
      dsimp only
      rw [Checked.trap_bind (Checked.slice_of_le (Nat.zero_le _) (Nat.le_of_lt hlt))]
      rfl

theorem textAt_eq (bytes : Bytes) (offset : UInt32) :
    textAt bytes offset = liftM (StringTable.textAt bytes offset) := by
  unfold textAt StringTable.textAt
  split
  · rfl
  · rw [Checked.trap_bind (Checked.slice_of_le (by omega) (Nat.le_refl _)), List.take_length,
      terminated?_eq, pure_bind]
    cases ClientTable.terminated? (bytes.drop offset.toNat) <;> rfl

theorem mirrors_resolve (offset : UInt32) :
    Mirrors Eq (resolve offset) (StringTable.resolve offset) := by
  refine mirrors_get_bind ?_
  rintro t _ rfl
  cases t.found? offset with
  | some text => exact mirrors_pure text
  | none =>
      dsimp only
      rw [textAt_eq]
      refine (mirrors_lift _).bind fun text => Mirrors.bind ?_ fun _ => mirrors_pure text
      rintro t _ rfl
      exact ⟨_, rfl, rfl⟩

theorem isInside_eq {records : Segment} (hrecords : records.stop < positionLimit)
    (l : RowLocation) : isInside records l = pure (l.isInside records) := by
  have hoffset := l.offset.toNat_lt
  have hlength := l.length.toNat_lt
  have hstop : l.offset.toNat + l.length.toNat < positionLimit := by
    rw [positionLimit]
    omega
  unfold isInside
  rw [Checked.trap_bind (Checked.add_of_lt hstop), Checked.trap_bind (Checked.add_of_lt hrecords)]
  rfl

theorem checkInside_eq {records : Segment} (hrecords : records.stop < positionLimit)
    (locations : List RowLocation) :
    checkInside records locations =
      match locations.find? fun l => !l.isInside records with
      | some stray => throw (stray.outside records)
      | none => pure () := by
  induction locations with
  | nil => rfl
  | cons l locations ih =>
      rw [checkInside, isInside_eq hrecords, pure_bind, ih, List.find?_cons]
      cases l.isInside records <;> rfl

theorem select_eq {records : Segment} (hrecords : records.stop < positionLimit)
    (recordCount : UInt32) (slots : List RowLocation) :
    select records recordCount slots = liftM (RowLocation.select records recordCount slots) := by
  unfold select RowLocation.select
  dsimp only
  rw [checkInside_eq hrecords]
  cases (slots.filter RowLocation.isUsed).find? fun l => !l.isInside records with
  | some stray => rfl
  | none =>
      dsimp only
      rw [pure_bind]
      split <;> rfl

theorem decode_eq {α : Type} {item : Guarded Input α} {parse : Parse α} (h : Mirrors Eq item parse)
    (bytes : Bytes) : decode item bytes = liftM (Parse.decode parse bytes) := by
  obtain ⟨_, hrun, -⟩ := h (.ofBytes bytes) _ rfl
  unfold decode Parse.decode
  rw [hrun]
  rfl

theorem mirrors_parse {α : Type} (parse : Parse α) : Mirrors Eq (liftM parse) parse := by
  rintro input _ rfl
  exact ⟨_, rfl, rfl⟩

theorem mirrors_parseListed (length : Nat) :
    Mirrors Eq (parseListed length) (RelationshipTable.parseListed length) := by
  refine (mirrors_parse Parse.u32).bind fun count => (mirrors_parse Parse.u32).bind fun _ =>
    (mirrors_parse Parse.u32).bind fun _ => ?_
  have hcount := count.toNat_lt
  rw [trap_bind (Checked.mul_of_lt (by rw [positionLimit, KeyedWord.entrySize]; omega)),
    trap_bind (Checked.add_of_lt (by rw [positionLimit, KeyedWord.entrySize]; omega))]
  dsimp only
  split
  · exact mirrors_throw_bind _ _ _
  · exact (mirrors_parse _).bind fun _ => mirrors_pure _

/-- Pieces that are each read as an item give the items that are read one after the other. -/
theorem mapM_pieces {α : Type} {item : Parse α} {read : Bytes → Except Trap α} {size : Nat}
    (hread : ∀ piece rest position, piece.length = size → ∃ a, read piece = pure a ∧
      item.on ⟨piece ++ rest, position⟩ = (.ok a, ⟨rest, position + size⟩))
    {count : Nat} {bytes : Bytes} (hlength : count * size ≤ bytes.length) (position : Nat) :
    ∃ items, (pieces size count bytes).mapM read = pure items ∧
      ((Parse.many item count).on ⟨bytes, position⟩).1 = .ok items := by
  induction count generalizing bytes position with
  | zero => exact ⟨[], rfl, rfl⟩
  | succ count ih =>
      rw [Nat.succ_mul] at hlength
      have hpiece : (bytes.take size).length = size := by
        rw [List.length_take, Nat.min_eq_left (by omega)]
      obtain ⟨first, hfirst, hitem⟩ := hread _ (bytes.drop size) position hpiece
      obtain ⟨others, hothers, hmany⟩ := @ih (bytes.drop size)
        (by rw [List.length_drop]; omega) (position + size)
      rw [List.take_append_drop] at hitem
      refine ⟨first :: others, ?_, ?_⟩
      · rw [pieces, List.mapM_cons, hfirst, pure_bind, hothers, pure_bind]
      · rw [Parse.on_many_succ hitem, hmany]
        rfl

theorem exists_copyWord (piece rest : Bytes) (position : Nat) (hlength : piece.length = 4) :
    ∃ word, copyWord piece = pure word ∧
      Parse.u32.on ⟨piece ++ rest, position⟩ = (.ok word, ⟨rest, position + 4⟩) := by
  refine ⟨UInt32.ofNat (littleEndian piece), if_pos hlength, ?_⟩
  have htake := Parse.on_take_append piece rest position
  rw [hlength] at htake
  rw [Parse.u32, Parse.number, bind_assoc, Attempt.on_bind_of_ok htake]
  rfl

theorem exists_keyedWord (piece rest : Bytes) (position : Nat)
    (hlength : piece.length = KeyedWord.entrySize) : ∃ entry, keyedWord piece = pure entry ∧
      KeyedWord.parse.on ⟨piece ++ rest, position⟩ =
        (.ok entry, ⟨rest, position + KeyedWord.entrySize⟩) := by
  match piece, hlength with
  | [b₀, b₁, b₂, b₃, b₄, b₅, b₆, b₇], _ => exact ⟨_, rfl, rfl⟩

theorem exists_readSlots (block : Bytes) : ∃ t, readSlots block = pure t ∧
    Parse.decode (RelationshipTable.parseSlots block.length) block = .ok t := by
  obtain ⟨keys, hkeys, hmany⟩ :=
    mapM_pieces exists_copyWord (Nat.div_mul_le_self block.length 4) 0
  refine ⟨⟨RelationshipTable.numbered 0 keys⟩, ?_, ?_⟩
  · rw [readSlots, hkeys, pure_bind]
  · rw [Parse.decode, RelationshipTable.parseSlots, Attempt.on_bind, Input.ofBytes]
    generalize Attempt.on _ _ = result at hmany ⊢
    obtain ⟨_, _⟩ := result
    cases hmany
    rfl

theorem palletWord_eq (t : PalletTable) {chunk : Nat} (hchunk : chunk + 4 < positionLimit)
    (index : Nat) : palletWord t chunk index = liftM (t.word chunk index) := by
  have hstop : index * 4 + (chunk + 4) = PalletTable.position chunk index + 4 := by
    rw [PalletTable.position]
    omega
  unfold palletWord PalletTable.word
  rw [Checked.trap_bind (Checked.add_of_lt hchunk)]
  dsimp only
  rw [hstop]
  generalize PalletTable.position chunk index = start
  split
  · rfl
  · have hslice : Checked.slice t.bytes start (start + 4) = pure ((t.bytes.drop start).take 4) := by
      rw [Checked.slice_of_le (Nat.le_add_right ..) (by rw [PalletTable.size] at *; omega),
        List.drop_take, Nat.add_sub_cancel_left]
    have hlength : ((t.bytes.drop start).take 4).length = 4 := by
      rw [PalletTable.size] at *
      rw [List.length_take, List.length_drop]
      omega
    rw [Checked.trap_bind (Checked.sub_of_le (Nat.le_add_left ..)), Nat.add_sub_cancel,
      Checked.trap_bind hslice]
    rw [copyWord, if_pos hlength]
    rfl

theorem columnOfChunk_eq (block : Bytes) (column : Nat) {chunk : Chunk}
    (hchunk : chunk.stop < positionLimit) :
    columnOfChunk block column chunk = liftM (CommonTable.columnOfChunk block column chunk) := by
  unfold columnOfChunk CommonTable.columnOfChunk
  rw [Checked.trap_bind (Checked.add_of_lt hchunk)]
  change (if block.length < chunk.stop then _ else _) = _
  split
  case isTrue => rfl
  case isFalse hinside =>
      have hle : chunk.start ≤ chunk.stop := Nat.le_add_right ..
      have hslice : Checked.slice block chunk.start chunk.stop =
          pure ((block.drop chunk.start).take chunk.size) := by
        rw [Checked.slice_of_le hle (Nat.not_lt.mp hinside), List.drop_take,
          Chunk.stop, Nat.add_sub_cancel_left]
      refine Checked.bind_eq_lift (entryCount_eq _ _ (by decide)) fun count hcount => ?_
      have hlength : count * KeyedWord.entrySize ≤
          ((block.drop chunk.start).take chunk.size).length := by
        rw [Chunk.length_take_drop hinside]
        exact Block.mul_le_of_entryCount hcount
      obtain ⟨values, hvalues, hmany⟩ := mapM_pieces exists_keyedWord hlength 0
      change liftM (Checked.slice block chunk.start chunk.stop) >>= _ = _
      rw [Checked.trap_bind hslice]
      dsimp only
      rw [Checked.trap_bind hvalues, Parse.decode, Input.ofBytes, hmany]
      rfl

theorem columnsOfChunks_eq (block : Bytes) (column : Nat) {descriptors : List Descriptor}
    (hchunks : ∀ d ∈ descriptors, d.chunk.stop < positionLimit) :
    columnsOfChunks block column descriptors =
      liftM (CommonTable.columnsOfChunks block column descriptors) := by
  induction descriptors generalizing column with
  | nil => rfl
  | cons d descriptors ih =>
      have ih := fun column => ih column fun d hd => hchunks d (List.mem_cons_of_mem _ hd)
      unfold columnsOfChunks CommonTable.columnsOfChunks
      split
      · have hfirst := columnOfChunk_eq block column (hchunks d (List.mem_cons_self ..))
        refine Checked.bind_eq_lift hfirst fun first _ => ?_
        exact Checked.bind_eq_lift (ih _) fun _ _ => rfl
      · exact ih _

/-- The drive reads from the source and has had the stream hand out so many bytes. -/
def Holds (source : Source) (d : Drive) (count : Nat) : Prop :=
  d.source = source ∧ d.handedOut = count

/-- Everything up to the end of the segment has a position of 64 bits. -/
def IsAddressable (segment : Segment) : Prop :=
  segment.stop < positionLimit

section

variable {source : Source} {segment : Segment}

theorem mirrors_readSegment (horigin : source.origin = 0) (hsegment : IsAddressable segment) :
    Mirrors (Holds source) (Drive.readSegment segment) (source.readSegment segment) := by
  rintro d count ⟨rfl, rfl⟩
  have hlt : segment.start + d.source.origin < positionLimit := by
    rw [horigin]
    exact Nat.lt_of_le_of_lt (Nat.le_add_right ..) hsegment
  exact ⟨_, Drive.on_readBlock_of_lt hlt, rfl, rfl⟩

theorem mirrors_readStringTable (horigin : source.origin = 0) (hsegment : IsAddressable segment)
    (intern : Bool) :
    Mirrors (Holds source) (readStringTable segment intern)
      (StringTable.read source segment intern) :=
  (mirrors_readSegment horigin hsegment).bind fun _ => mirrors_pure _

theorem mirrors_readLocations (horigin : source.origin = 0) (hsegment : IsAddressable segment)
    {records : Segment} (hrecords : IsAddressable records) (recordCount : UInt32) :
    Mirrors (Holds source) (readLocations segment records recordCount)
      (RowLocation.readAll source segment records recordCount) :=
  (mirrors_checked (entryCount_eq _ _ (by decide))).bind fun _ =>
    (mirrors_readSegment horigin hsegment).bind fun _ => (mirrors_lift _).bind fun _ =>
      mirrors_checked (select_eq hrecords recordCount _)

theorem mirrors_readIndexTable (horigin : source.origin = 0) (hsegment : IsAddressable segment)
    (recordCount : UInt32) :
    Mirrors (Holds source) (readIndexTable segment recordCount)
      (IndexTable.read source segment recordCount) := by
  refine (mirrors_checked (entryCount_eq _ _ (by decide))).bind fun count => ?_
  split
  · exact mirrors_throw_bind _ _ _
  · exact (mirrors_readSegment horigin hsegment).bind fun _ => (mirrors_lift _).bind fun _ =>
      mirrors_pure _

theorem mirrors_readCopyTable (horigin : source.origin = 0) (hsegment : IsAddressable segment) :
    Mirrors (Holds source) (readCopyTable segment) (CopyTable.read source segment) :=
  (mirrors_checked (entryCount_eq _ _ (by decide))).bind fun _ =>
    (mirrors_readSegment horigin hsegment).bind fun _ => (mirrors_lift _).bind fun _ =>
      mirrors_pure _

theorem mirrors_readRelationshipTable (horigin : source.origin = 0)
    (hsegment : IsAddressable segment) (signature : Signature) :
    Mirrors (Holds source) (readRelationshipTable segment signature)
      (RelationshipTable.read source segment signature) := by
  have hlisted (block : Bytes) := decode_eq (mirrors_parseListed segment.length) block
  refine (mirrors_readSegment horigin hsegment).bind_of_ensures
    (source.ensures_readSegment segment) fun block hblock => ?_
  obtain ⟨t, hslots, hdecode⟩ := exists_readSlots block
  have hslotted : Mirrors (Holds source) (do return ← readSlots block)
      (liftM (Parse.decode (RelationshipTable.parseSlots segment.length) block)) := by
    rw [hslots, ← (Source.block_eq_ok_iff.mp hblock).1, hdecode]
    exact mirrors_pure t
  cases signature with
  | wdb5 => exact hslotted
  | wdb6 => exact hslotted
  | _ => exact mirrors_checked (hlisted block)

theorem mirrors_readPalletTable (horigin : source.origin = 0) (hsegment : IsAddressable segment) :
    Mirrors (Holds source) (readPalletTable segment) (PalletTable.read source segment) :=
  (mirrors_readSegment horigin hsegment).bind fun _ => mirrors_pure _

theorem mirrors_readCommonTable (horigin : source.origin = 0) (hsegment : IsAddressable segment)
    (h : Header) {descriptors : List Descriptor}
    (hchunks : ∀ d ∈ descriptors, d.chunk.stop < positionLimit) :
    Mirrors (Holds source) (readCommonTable segment h descriptors)
      (CommonTable.read source segment h descriptors) := by
  refine (mirrors_readSegment horigin hsegment).bind fun block => ?_
  split
  · exact (mirrors_lift _).bind fun _ => mirrors_pure _
  · exact (mirrors_checked (columnsOfChunks_eq block 0 hchunks)).bind fun _ => mirrors_pure _

end

end ClientTable.Machine
