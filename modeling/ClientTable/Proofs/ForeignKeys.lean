import ClientTable.Proofs.RowElements
import ClientTable.Proofs.TrailingColumns

namespace ClientTable

open Attempt

namespace RowLocation

variable {slots : List RowLocation} {p : Nat} {l : RowLocation}

/-- The number of slots before a position that locate a record. -/
def rank (slots : List RowLocation) (position : Nat) : Nat :=
  (slots.take position).countP isUsed

theorem rank_le (slots : List RowLocation) (position : Nat) : rank slots position ≤ position :=
  List.countP_le_length.trans (List.length_take_le ..)

theorem getElem?_filter_rank (hl : slots[p]? = some l) (hused : l.isUsed = true) :
    (slots.filter isUsed)[rank slots p]? = some l := by
  have hrank : rank slots p = ((slots.take p).filter isUsed).length :=
    List.countP_eq_length_filter
  have hfilter := congrArg (List.filter isUsed) (eq_take_append_cons hl)
  rw [List.filter_append, List.filter_cons_of_pos hused] at hfilter
  rw [hfilter, hrank, List.getElem?_append_right (Nat.le_refl _), Nat.sub_self]
  rfl

theorem rank_eq_iff (hl : slots[p]? = some l) :
    rank slots p = p ↔ ∀ earlier ∈ slots.take p, earlier.isUsed = true := by
  obtain ⟨hlt, -⟩ := List.getElem?_eq_some_iff.mp hl
  have hlength : (slots.take p).length = p := List.length_take_of_le (Nat.le_of_lt hlt)
  rw [← List.countP_eq_length (p := isUsed), hlength]
  rfl

end RowLocation

namespace KeyedWord

theorem lookup?_cons (first : KeyedWord) (entries : List KeyedWord) (key : UInt32) :
    lookup? (first :: entries) key =
      (lookup? entries key).or (if first.key = key then some first.word else none) := by
  unfold lookup?
  rw [List.reverse_cons, List.find?_append, Option.map_or]
  congr 1
  by_cases h : first.key = key <;> simp [h]

end KeyedWord

namespace RelationshipTable

/-- The foreign key in a slot of a block. -/
def keyAt (block : Bytes) (slot : Nat) : UInt32 :=
  UInt32.ofNat (littleEndian ((block.drop (4 * slot)).take 4))

/-- The foreign keys in the slots of a block. -/
def keys (block : Bytes) : List UInt32 :=
  (List.range (block.length / 4)).map (keyAt block)

theorem decode_parseSlots (block : Bytes) :
    Parse.decode (parseSlots block.length) block = .ok ⟨numbered 0 (keys block)⟩ := by
  have hitem (bytes : Bytes) (position : Nat) (hle : 4 ≤ bytes.length) : ∃ next,
      Parse.u32.on ⟨bytes, position⟩ =
        (.ok (UInt32.ofNat (littleEndian (bytes.take 4))), ⟨bytes.drop 4, next⟩) :=
    ⟨_, @Parse.on_u32_of_le ⟨bytes, position⟩ hle⟩
  have hmany := Parse.on_many_entries hitem (Nat.mul_div_le block.length 4) 0
  unfold Parse.decode parseSlots Input.ofBytes
  rw [on_bind_of_ok (Prod.ext hmany rfl)]
  rfl

theorem lookup?_numbered_of_lt {row other : Nat} {words : List UInt32} (hlt : other < row)
    (hlimit : row + words.length ≤ wordLimit) :
    KeyedWord.lookup? (numbered row words) (UInt32.ofNat other) = none := by
  induction words generalizing row with
  | nil => rfl
  | cons word words ih =>
      rw [List.length_cons] at hlimit
      have hne : UInt32.ofNat row ≠ UInt32.ofNat other := by
        intro hsame
        have hnumbers := congrArg UInt32.toNat hsame
        rw [toNat_ofNat_of_lt (by omega), toNat_ofNat_of_lt (by omega)] at hnumbers
        omega
      rw [numbered, KeyedWord.lookup?_cons, ih (by omega) (by omega), if_neg hne]
      rfl

theorem lookup?_numbered {row i : Nat} {words : List UInt32} {word : UInt32}
    (hword : words[i]? = some word) (hlimit : row + words.length ≤ wordLimit) :
    KeyedWord.lookup? (numbered row words) (UInt32.ofNat (row + i)) = some word := by
  induction words generalizing row i with
  | nil => cases hword
  | cons first words ih =>
      rw [List.length_cons] at hlimit
      rw [numbered, KeyedWord.lookup?_cons]
      cases i with
      | zero =>
          cases hword
          have hlater : KeyedWord.lookup? (numbered (row + 1) words) (UInt32.ofNat (row + 0)) =
              none := lookup?_numbered_of_lt (Nat.lt_succ_self row) (by omega)
          rw [hlater]
          exact if_pos rfl
      | succ i =>
          have hnext : row + (i + 1) = row + 1 + i := by omega
          rw [hnext, ih hword (by omega)]
          rfl

theorem foreignKey?_keys (block : Bytes) {slot : Nat} (hslot : slot < block.length / 4)
    (hlimit : block.length / 4 ≤ wordLimit) :
    foreignKey? ⟨numbered 0 (keys block)⟩ (UInt32.ofNat slot) = some (keyAt block slot) := by
  have hlength : (keys block).length = block.length / 4 := by
    rw [keys, List.length_map, List.length_range]
  have hkey : (keys block)[slot]? = some (keyAt block slot) := by
    rw [keys, List.getElem?_map, List.getElem?_range hslot]
    rfl
  have hfound := @lookup?_numbered 0 _ _ _ hkey (by omega)
  rwa [Nat.zero_add] at hfound

end RelationshipTable

/-- The section has an offset map and a block of foreign keys of the given bytes, with a slot each
for every id. -/
structure SectionLayout.HasSlots (source : Source) (h : Header) (layout : SectionLayout)
    (map keys : Bytes) : Prop where
  offsetMap : ∃ segment, layout.find? .offsetMap = some segment ∧
    source.block segment.start segment.length = .ok map
  relationships : ∃ segment, layout.find? .relationshipTable = some segment ∧
    source.block segment.start segment.length = .ok keys
  mapLength : map.length = (h.maxIndex.toNat - h.minIndex.toNat + 1) * 6
  keysLength : keys.length = (h.maxIndex.toNat - h.minIndex.toNat + 1) * 4

namespace Layout

variable {h : Header}

theorem nodup_kinds_flaggedRequests (h : Header) : ((flaggedRequests h).map Prod.fst).Nodup := by
  unfold flaggedRequests recordArea stringsOrOffsets words sized
  split <;> split <;> split <;> split <;> simp

/-- With both flags there are an offset map and foreign keys, of one slot for each id. -/
theorem perId_of_plan (hsignature : h.signature = .wdb5 ∨ h.signature = .wdb6)
    (hmap : h.hasOffsetMap = true) (hrelated : h.flags.hasRelationships = true) {layout : Layout}
    (hplan : plan h = .ok layout) : ∀ s ∈ layout.sections, ∃ map keys,
      s.find? .offsetMap = some map ∧ s.find? .relationshipTable = some keys ∧
        map.length = (h.maxIndex.toNat - h.minIndex.toNat + 1) * 6 ∧
        keys.length = (h.maxIndex.toNat - h.minIndex.toNat + 1) * 4 := by
  obtain ⟨segments, hplace, rfl⟩ := exists_of_plan_flagged hsignature hplan
  intro s hs
  obtain rfl := List.mem_singleton.mp hs
  have hkinds := nodup_kinds_flaggedRequests h
  rw [← map_kind_of_place hplace] at hkinds
  have hfound (kind : SegmentKind) (size : Nat) (hrequest : (kind, .perId size) ∈ flaggedRequests h)
      (hsize : 0 < size) (hown : kind.isShared = false) : ∃ segment,
        Segment.find? kind (segments.filter fun s => !s.kind.isShared) = some segment ∧
          segment.length = (h.maxIndex.toNat - h.minIndex.toNat + 1) * size := by
    obtain ⟨segment, hmem, rfl, hlength⟩ := exists_of_place hplace hrequest
    have hpresent := of_decide_eq_true (isPresent_of_perId hsize hlength)
    refine ⟨segment, Segment.find?_of_mem ?_ (List.mem_filter.mpr ⟨hmem, by simp [hown]⟩) hpresent,
      ?_⟩
    · exact (List.filter_sublist.map Segment.kind).nodup hkinds
    · obtain ⟨count, hcount, hlength⟩ := bind_eq_ok.mp hlength
      unfold Extent.idCount at hcount
      split at hcount
      · cases hcount
      · cases hcount
        exact (Except.ok.inj hlength).symm
  obtain ⟨map, hmapFound, hmapLength⟩ := hfound .offsetMap 6
    (by simp [flaggedRequests, stringsOrOffsets, hmap]) (by decide) rfl
  obtain ⟨keys, hkeysFound, hkeysLength⟩ := hfound .relationshipTable 4
    (by simp [flaggedRequests, hrelated]) (by decide) rfl
  exact ⟨map, keys, hmapFound, hkeysFound, hmapLength, hkeysLength⟩

end Layout

namespace Section

theorem ensures_readRelationships (source : Source) {h : Header}
    (hsignature : h.signature = .wdb5 ∨ h.signature = .wdb6) {layout : SectionLayout}
    {segment : Segment} (hsegment : layout.find? .relationshipTable = some segment) :
    Ensures (readRelationships source h layout) fun relationships =>
      ∃ block, source.block segment.start segment.length = .ok block ∧
        relationships = some ⟨RelationshipTable.numbered 0 (RelationshipTable.keys block)⟩ := by
  unfold readRelationships
  rw [hsegment]
  have hread : Ensures (RelationshipTable.read source segment h.signature) fun table =>
      ∃ block, source.block segment.start segment.length = .ok block ∧
        table = ⟨RelationshipTable.numbered 0 (RelationshipTable.keys block)⟩ := by
    refine (Source.ensures_readSegment source segment).bind fun block hblock => ?_
    have hdecode := RelationshipTable.decode_parseSlots block
    rw [(Source.block_eq_ok_iff.mp hblock).1] at hdecode
    have hlift : Ensures (liftM (Parse.decode (RelationshipTable.parseSlots segment.length) block) :
        Reading RelationshipTable) fun table => ∃ block,
          source.block segment.start segment.length = .ok block ∧
            table = ⟨RelationshipTable.numbered 0 (RelationshipTable.keys block)⟩ := by
      refine ensures_lift fun table htable => ⟨block, hblock, ?_⟩
      rw [hdecode] at htable
      exact (Except.ok.inj htable).symm
    rcases hsignature with hs | hs
    · rw [hs]
      exact hlift
    · rw [hs]
      exact hlift
  refine hread.bind fun table htable => ensures_pure ?_
  obtain ⟨block, hblock, rfl⟩ := htable
  exact ⟨block, hblock, rfl⟩

theorem ensures_read_relationships (source : Source) {h : Header}
    (hsignature : h.signature = .wdb5 ∨ h.signature = .wdb6) {layout : SectionLayout}
    {segment : Segment} (hsegment : layout.find? .relationshipTable = some segment)
    (intern : Bool) :
    Ensures (read source h layout intern) fun s =>
      ∃ block, source.block segment.start segment.length = .ok block ∧
        s.relationships = some ⟨RelationshipTable.numbered 0 (RelationshipTable.keys block)⟩ := by
  refine (ensures_read_putTogether source h layout intern).mono fun s ⟨area, hread⟩ => ?_
  exact hread.relationships.of_ensures (ensures_readRelationships source hsignature hsegment)

/-- The rows of a section are numbered by the slots that locate them. -/
theorem Fresh.getElem?_rows {source : Source} {h : Header} {layout : SectionLayout} {s : Section}
    (fresh : s.Fresh source h layout) (hmap : h.hasOffsetMap = true) {segment : Segment}
    {map : Bytes} (hsegment : layout.find? .offsetMap = some segment)
    (hblock : source.block segment.start segment.length = .ok map) {p : Nat} {l : RowLocation}
    (hl : (RowLocation.slots map)[p]? = some l) (hused : l.isUsed = true) :
    s.rows.rows[RowLocation.rank (RowLocation.slots map) p]? =
      some ⟨RowLocation.rank (RowLocation.slots map) p, l.offset.toNat, l.length.toNat⟩ := by
  obtain ⟨other, used, hother, ⟨block, slots, hsame, hdecode, rfl⟩, -, hrows⟩ :=
    fresh.located hmap
  rw [hsegment] at hother
  cases hother
  rw [hblock] at hsame
  cases hsame
  have hslots := RowLocation.decode_slots map
  rw [(Source.block_eq_ok_iff.mp hblock).1] at hslots
  rw [RowLocation.entrySize, hslots] at hdecode
  cases hdecode
  have hfound := RowLocation.getElem?_filter_rank hl hused
  rw [hrows, RowCursor.rows, List.getElem?_map, List.getElem?_zipIdx, hfound, Nat.zero_add]
  rfl

end Section

/-- The foreign key is looked up for the row, and the record in it has the key in all elements that
the column of foreign keys feeds. -/
def Reader.HasForeignKey (reader : Reader) (h : Header) (layout : SectionLayout) (s : Section)
    (row : Row) (key : UInt32) : Prop :=
  (s.relationships.bind fun table => table.foreignKey? (UInt32.ofNat row.index)) = some key ∧
    ∀ records base slot kind field position d, reader.HasRecord records h layout s row base →
      reader.Feeds layout slot kind field position →
      reader.metadata.descriptors[slot.descriptor]? = some d → d.storage = .relationship →
      ∃ v, base.element? field position = some v ∧
        Scalar.ofTableWord s.strings.bytes key kind = .ok v

namespace Reader

variable {stream : Stream} {schema : Schema} {options : Options} {reader : Reader} {count : Nat}
  {h : Header} {layout : SectionLayout} {s : Section}

theorem hasForeignKey (hopen : ((ofStream stream schema options).on count).1 = .ok reader)
    {row : Row} {key : UInt32}
    (hkey : (s.relationships.bind fun table => table.foreignKey? (UInt32.ofNat row.index)) =
      some key) : reader.HasForeignKey h layout s row key := by
  refine ⟨hkey, fun records base slot kind field position d hbase hfeeds hd hforeign => ?_⟩
  have hkept := hbase.hasSection.fresh.strings
  obtain ⟨v, state, hv, hcomes, hread⟩ := hbase.exists_read hopen hfeeds hd
    (by rw [Descriptor.isCommon, hforeign])
  have hcontext : (s.context reader.metadata records.shared row).descriptors[slot.descriptor]? =
      some d := hd
  obtain ⟨other, hother, hkeeps⟩ := Mapping.keepsOutside_of_element (hcomes.holds hkept).2 hcontext
    hforeign (Prod.ext hread rfl) none
  rw [hcontext] at hother
  cases hother
  rw [hforeign] at hkeeps
  change Scalar.ofTableWord _ (((s.relationships.bind fun table =>
    table.foreignKey? (UInt32.ofNat row.index))).getD 0) kind = _ at hkeeps
  rw [hkey] at hkeeps
  exact ⟨v, hv, hkeeps⟩

/-- Where a file has an offset map and a foreign key for each id, the record that a slot locates has
the foreign key in the slot of its rank. That is its own slot just if no slot before it is unused.
-/
theorem foreign_key_of_rank (hopen : ((ofStream stream schema options).on count).1 = .ok reader)
    (hsection : reader.HasSection h layout s)
    (hsignature : h.signature = .wdb5 ∨ h.signature = .wdb6) (hmap : h.hasOffsetMap = true)
    (hrelated : h.flags.hasRelationships = true) :
    ∃ map keys, layout.HasSlots reader.source h map keys ∧
      ∀ p l, (RowLocation.slots map)[p]? = some l → l.isUsed = true →
        ∃ r, r = RowLocation.rank (RowLocation.slots map) p ∧
          (r = p ↔ ∀ earlier ∈ (RowLocation.slots map).take p, earlier.isUsed = true) ∧
          s.rows.rows[r]? = some ⟨r, l.offset.toNat, l.length.toNat⟩ ∧
          reader.HasForeignKey h layout s ⟨r, l.offset.toNat, l.length.toNat⟩
            (RelationshipTable.keyAt keys r) := by
  have fresh := hsection.fresh
  obtain ⟨hheader, hlayout, hopens⟩ := hsection
  have hplan := ensures_plan stream schema options count reader hopen h hheader
  obtain ⟨mapSegment, keySegment, hmapSegment, hkeySegment, hmapLength, hkeyLength⟩ :=
    Layout.perId_of_plan hsignature hmap hrelated hplan layout hlayout
  obtain ⟨keys, hkeys, hrelationships⟩ := Section.ensures_read_relationships reader.source
    hsignature hkeySegment reader.options.internStrings 0 s hopens
  obtain ⟨other, used, hother, ⟨map, slots, hmapBlock, -, -⟩, -, -⟩ := fresh.located hmap
  rw [hmapSegment] at hother
  cases hother
  have hmapBytes := (Source.block_eq_ok_iff.mp hmapBlock).1.trans hmapLength
  have hkeyBytes := (Source.block_eq_ok_iff.mp hkeys).1.trans hkeyLength
  refine ⟨map, keys, ⟨⟨_, hmapSegment, hmapBlock⟩, ⟨_, hkeySegment, hkeys⟩, hmapBytes, hkeyBytes⟩,
    fun p l hl hused => ?_⟩
  obtain ⟨hp, -⟩ := List.getElem?_eq_some_iff.mp hl
  -- There is a slot of both blocks for each id, so the rank is below the number of keys.
  have hrank := RowLocation.rank_le (RowLocation.slots map) p
  have hslots : (RowLocation.slots map).length = h.maxIndex.toNat - h.minIndex.toNat + 1 := by
    rw [RowLocation.slots, List.length_map, List.length_range, hmapBytes]
    omega
  have hmax : h.maxIndex.toNat < wordLimit := h.maxIndex.toNat_lt
  have hkey := @RelationshipTable.foreignKey?_keys keys
    (RowLocation.rank (RowLocation.slots map) p) (by omega) (by omega)
  refine ⟨_, rfl, RowLocation.rank_eq_iff hl,
    fresh.getElem?_rows hmap hmapSegment hmapBlock hl hused, hasForeignKey hopen ?_⟩
  rw [hrelationships]
  exact hkey

/-- The slots of three ids, of which the second is unused. -/
def gappedMap : Bytes :=
  [52, 0, 0, 0, 4, 0, 0, 0, 0, 0, 0, 0, 56, 0, 0, 0, 4, 0]

def threeKeys : Bytes :=
  ([100, 200, 300] : List UInt32).flatMap wordBytes

def gappedRows : Bytes :=
  wordFile .wdb5 [2, 1, 4, 60, 0, 0, 1, 3, 0, 0, 3, 0, 1, 3] ++ gappedMap ++ threeKeys

def gappedSchema : Schema :=
  ⟨[.scalar "id" .u32, .scalar "parent" .u32]⟩

theorem foreign_key_of_rank_gappedRows :
    ∃ f ∈ firstRecord? gappedRows gappedSchema,
      ((ofStream ⟨gappedRows, 0, none⟩ gappedSchema .default).on 0).1 = .ok f.reader ∧
      f.reader.HasSection f.header f.layout f.opened ∧ f.header.signature = .wdb5 ∧
      f.header.hasOffsetMap = true ∧ f.header.flags.hasRelationships = true ∧
      (RowLocation.slots gappedMap)[2]? = some ⟨56, 4⟩ ∧ RowLocation.isUsed ⟨56, 4⟩ = true ∧
      ∃ keys, f.layout.HasSlots f.reader.source f.header gappedMap keys ∧
        f.opened.rows.rows[1]? = some ⟨1, 56, 4⟩ ∧
        f.reader.HasForeignKey f.header f.layout f.opened ⟨1, 56, 4⟩
          (RelationshipTable.keyAt keys 1) := by
  have hrun : ∃ f ∈ firstRecord? gappedRows gappedSchema, f.header.signature = .wdb5 ∧
      f.header.hasOffsetMap = true ∧ f.header.flags.hasRelationships = true ∧
      f.layout.find? .offsetMap = some ⟨.offsetMap, 60, 18⟩ ∧
      f.reader.source.block 60 18 = .ok gappedMap := by
    decide +kernel
  obtain ⟨f, hf, hsignature, hmap, hrelated, hsegment, hblock⟩ := hrun
  obtain ⟨hopen, -, hrecord⟩ := FirstRecord.hasRecord hf
  have hsection := hrecord.hasSection
  obtain ⟨map, keys, hslots, hranked⟩ :=
    foreign_key_of_rank hopen hsection (.inl hsignature) hmap hrelated
  obtain ⟨segment, hsame, hread⟩ := hslots.offsetMap
  rw [hsegment] at hsame
  cases hsame
  rw [hblock] at hread
  cases hread
  obtain ⟨r, rfl, -, hrow, hkey⟩ := hranked 2 ⟨56, 4⟩ (by decide) (by decide)
  exact ⟨f, hf, hopen, hsection, hsignature, hmap, hrelated, by decide, by decide, keys, hslots,
    hrow, hkey⟩

/-- The record that the third slot locates is given the foreign key of the second. -/
theorem foreign_key_of_unused_slot :
    ∃ f ∈ firstRecord? gappedRows gappedSchema,
      f.layout.HasSlots f.reader.source f.header gappedMap threeKeys ∧
      (RowLocation.slots gappedMap).map RowLocation.isUsed = [true, false, true] ∧
      RelationshipTable.keys threeKeys = [100, 200, 300] ∧
      ∃ base, f.reader.HasRecord f.records f.header f.layout f.opened ⟨1, 56, 4⟩ base ∧
        (RowLocation.slots gappedMap)[2]? = some ⟨56, 4⟩ ∧
        base.values.map Value.toWord? = [some 3, some 200] := by
  have hrun : ∃ f ∈ firstRecord? gappedRows gappedSchema,
      f.layout.find? .offsetMap = some ⟨.offsetMap, 60, 18⟩ ∧
      f.reader.source.block 60 18 = .ok gappedMap ∧
      f.layout.find? .relationshipTable = some ⟨.relationshipTable, 78, 12⟩ ∧
      f.reader.source.block 78 12 = .ok threeKeys ∧
      f.header.maxIndex = 3 ∧ f.header.minIndex = 1 ∧
      (⟨1, 56, 4⟩ : Row) ∈ f.opened.rows.rows ∧
      ∃ base ∈ (f.opened.decoded f.reader.source f.reader.metadata f.records.shared
        ⟨1, 56, 4⟩).1.toOption, base.values.map Value.toWord? = [some 3, some 200] := by
    decide +kernel
  obtain ⟨f, hf, hmap, hmapBlock, hkeys, hkeyBlock, hmax, hmin, hrow, base, hbase, hvalues⟩ := hrun
  obtain ⟨-, -, hrecord⟩ := FirstRecord.hasRecord hf
  refine ⟨f, hf, ⟨⟨_, hmap, hmapBlock⟩, ⟨_, hkeys, hkeyBlock⟩, ?_, ?_⟩, by decide, by decide, base,
    ⟨hrecord.isHeader, hrecord.isSection, hrecord.opens, hrow, ok_of_toOption hbase⟩, by decide,
    hvalues⟩
  · rw [hmax, hmin]
    decide
  · rw [hmax, hmin]
    decide

end Reader

end ClientTable
