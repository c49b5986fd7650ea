import ClientTable.Proofs.Bounds
import ClientTable.Proofs.KeyFields

namespace ClientTable

open Attempt

/-- The numbers of all descriptors are words, and their fields take up at most `limit` bits of a
record. -/
structure Descriptor.AreBounded (limit : Nat) (descriptors : List Descriptor) : Prop where
  each : ∀ d ∈ descriptors, d.IsBounded
  sum : total (descriptors.map recordBits) ≤ limit

namespace Descriptor

variable {d : Descriptor} {descriptors others : List Descriptor} {bits limit more : Nat}

theorem areBounded_nil (limit : Nat) : AreBounded limit [] :=
  ⟨nofun, Nat.zero_le _⟩

theorem AreBounded.cons (hd : d.IsBounded) (hbits : d.recordBits ≤ bits)
    (h : AreBounded limit descriptors) : AreBounded (bits + limit) (d :: descriptors) :=
  ⟨List.forall_mem_cons.mpr ⟨hd, h.each⟩, Nat.add_le_add hbits h.sum⟩

theorem AreBounded.append (h : AreBounded limit descriptors) (hothers : AreBounded more others) :
    AreBounded (limit + more) (descriptors ++ others) := by
  constructor
  · intro d hd
    exact (List.mem_append.mp hd).elim (h.each d) (hothers.each d)
  · rw [List.map_append, total_append]
    exact Nat.add_le_add h.sum hothers.sum

theorem AreBounded.mono (h : AreBounded limit descriptors) (hle : limit ≤ more) :
    AreBounded more descriptors :=
  ⟨h.each, Nat.le_trans h.sum hle⟩

theorem recordBits_le (hd : d.IsBounded) : d.recordBits ≤ (wordLimit - 1) * (wordLimit - 1) := by
  have hsize : d.bitSize ≤ wordLimit - 1 := Nat.le_pred_of_lt hd.bitSize
  have hmul : d.bitSize * d.cardinality ≤ (wordLimit - 1) * (wordLimit - 1) :=
    Nat.mul_le_mul hsize (Nat.le_pred_of_lt hd.cardinality)
  unfold recordBits
  cases d.storage with
  | plain | immediate | pallet => exact hmul
  | palletArray => exact Nat.le_trans hsize (by decide)
  | common | relationship => exact Nat.zero_le _

theorem bits_le (kind : FieldKind) : kind.bits ≤ 64 := by
  cases kind with
  | int kind => exact kind.bits_le
  | _ => decide

theorem areBounded_consecutive {offset : Nat} (hoffset : offset ≤ offsetLimit)
    (fields : List Field) :
    AreBounded (fields.length * (64 * wordLimit)) (consecutive offset fields) := by
  induction fields generalizing offset with
  | nil => exact areBounded_nil _
  | cons f fields ih =>
      have hbits := bits_le f.kind
      have hmul : f.kind.bits * f.arity ≤ 64 * wordLimit :=
        Nat.mul_le_mul hbits (Nat.le_of_lt f.arity_lt)
      rw [List.length_cons, Nat.succ_mul, Nat.add_comm]
      refine AreBounded.cons ⟨?_, ?_, f.arity_lt, zero_lt_wordLimit⟩ hmul (ih (Nat.min_le_right ..))
      · exact Nat.lt_of_le_of_lt hoffset (by decide)
      · exact Nat.lt_of_le_of_lt hbits (by decide)

end Descriptor

namespace FieldInfo

variable {h : Header} {info : FieldInfo} {index size count : Nat}

theorem bitSize_le (hsize : info.bitSize = .ok size) : size ≤ 64 := by
  unfold bitSize at hsize
  split at hsize
  · cases hsize
    omega
  · cases hsize

theorem bitOffset_lt (info : FieldInfo) : info.bitOffset < 0x80000 := by
  have hposition := info.position.toNat_lt
  rw [bitOffset]
  omega

/-- As many elements as fit in a gap, and one if none does, need no more than the gap or one. -/
theorem mul_max_div_le (size gap : Nat) : size * max (gap / size) 1 ≤ max gap size := by
  have hdiv : size * (gap / size) ≤ gap := Nat.mul_div_le gap size
  rcases Nat.le_total (gap / size) 1 with hle | hle
  · rw [Nat.max_eq_right hle, Nat.mul_one]
    exact Nat.le_max_right ..
  · rw [Nat.max_eq_left hle]
    exact Nat.le_trans hdiv (Nat.le_max_left ..)

theorem elements_of_cons {next : FieldInfo} {rest : List FieldInfo}
    (hcount : info.elements h index size (next :: rest) = .ok count) :
    ∃ gap < 0x80000, count = gap / size := by
  rw [elements] at hcount
  split at hcount
  · cases hcount
  · cases hcount
    exact ⟨_, Nat.lt_of_le_of_lt (Nat.sub_le ..) next.bitOffset_lt, rfl⟩

theorem elements_of_nil (hcount : info.elements h index size [] = .ok count) :
    count < wordLimit ∧ ∃ gap < 8 * wordLimit, count ≤ max (gap / size) 1 := by
  rw [elements] at hcount
  split at hcount
  · cases hcount
    exact ⟨one_lt_wordLimit, 0, by decide, Nat.le_max_right ..⟩
  · cases hcount
    refine ⟨Nat.mod_lt _ (by decide), h.recordBits - info.bitOffset, ?_, ?_⟩
    · have hrecord : h.recordSize.toNat < wordLimit := h.recordSize.toNat_lt
      rw [Header.recordBits]
      omega
    · exact Nat.le_trans (Nat.mod_le ..) (Nat.le_max_left ..)

theorem isBounded_descriptor (info : FieldInfo) (hsize : info.bitSize = .ok size)
    (hcount : count < wordLimit) :
    Descriptor.IsBounded ⟨info.bitOffset, size, max count 1, .plain false⟩ where
  bitOffset := Nat.lt_trans info.bitOffset_lt (by decide)
  bitSize := Nat.lt_of_le_of_lt (bitSize_le hsize) (by decide)
  cardinality := Nat.max_lt.mpr ⟨hcount, one_lt_wordLimit⟩
  chunk := zero_lt_wordLimit

/-- All entries but the last stand in front of another one. -/
theorem areBounded_descriptors {infos : List FieldInfo} {index : Nat}
    {descriptors : List Descriptor}
    (hbuild : FieldInfo.descriptors h index infos = .ok descriptors) :
    Descriptor.AreBounded (infos.length * 0x80000 + 8 * wordLimit) descriptors := by
  induction infos generalizing index descriptors with
  | nil =>
      cases hbuild
      exact Descriptor.areBounded_nil _
  | cons info rest ih =>
      obtain ⟨size, hsize, hbuild⟩ := bind_eq_ok.mp hbuild
      obtain ⟨count, hcount, hbuild⟩ := bind_eq_ok.mp hbuild
      obtain ⟨others, hothers, hbuild⟩ := bind_eq_ok.mp hbuild
      cases hbuild
      have hle := bitSize_le hsize
      -- Only the last entry has no other one to end at.
      cases rest with
      | nil =>
          obtain ⟨hword, gap, hgap, hcount⟩ := elements_of_nil hcount
          cases hothers
          have hbits : size * max count 1 ≤ 8 * wordLimit := by
            have hmax : max count 1 ≤ max (gap / size) 1 :=
              Nat.max_le.mpr ⟨hcount, Nat.le_max_right ..⟩
            have hmul := Nat.mul_le_mul_left size hmax
            have hfit := mul_max_div_le size gap
            rw [wordLimit] at *
            omega
          exact ((Descriptor.areBounded_nil 0).cons (isBounded_descriptor info hsize hword)
            hbits).mono (by omega)
      | cons next rest =>
          obtain ⟨gap, hgap, rfl⟩ := elements_of_cons hcount
          have hword : gap / size < wordLimit :=
            Nat.lt_of_le_of_lt (Nat.div_le_self ..) (Nat.lt_trans hgap (by decide))
          have hbits : size * max (gap / size) 1 ≤ 0x80000 := by
            have hfit := mul_max_div_le size gap
            omega
          refine ((ih hothers).cons (isBounded_descriptor info hsize hword) hbits).mono ?_
          simp only [List.length_cons]
          omega

end FieldInfo

namespace StorageInfo

variable {info : StorageInfo} {index : Nat}

theorem packedBits_lt (info : StorageInfo) : info.packedBits < wordLimit := by
  unfold packedBits
  split
  · exact Nat.lt_trans info.bitSize.toNat_lt (by decide)
  · exact info.second.toNat_lt

theorem bitOffset_lt (info : StorageInfo) : info.bitOffset.toNat < wordLimit :=
  Nat.lt_trans info.bitOffset.toNat_lt (by decide)

theorem plainBits_lt {field? : Option FieldInfo} {bits : Nat}
    (h : info.plainBits index field? = .ok bits) : bits < 0x10000 := by
  have hkept {found : Nat} (hlt : found < 0x10000)
      (h : (if found = 0 then throw (.invalid (.zeroWidth index)) else return found :
        Except Error Nat) = .ok bits) : bits < 0x10000 := by
    split at h
    · cases h
    · cases h
      exact hlt
  cases field? with
  | none => exact hkept info.bitSize.toNat_lt h
  | some field =>
      obtain ⟨found, hfound, h⟩ := bind_eq_ok.mp h
      exact hkept (Nat.lt_of_le_of_lt (FieldInfo.bitSize_le hfound) (by decide)) h

theorem stop_of_chunkAt {start : Nat} {chunk : Chunk} (h : info.chunkAt index start = .ok chunk) :
    chunk.stop < wordLimit := by
  unfold chunkAt at h
  split at h
  · cases h
  · cases h
    exact Nat.not_le.mp ‹_›

/-- However an entry says that its field is stored, the field takes up less than 4 Gibit of the
record. -/
theorem isBounded_descriptor {field? : Option FieldInfo} {offsets left : ChunkOffsets}
    {d : Descriptor} (h : info.descriptor index field? offsets = .ok (d, left)) :
    d.IsBounded ∧ d.recordBits ≤ wordLimit := by
  have hoffset := info.bitOffset_lt
  have hpacked := info.packedBits_lt
  obtain ⟨compression, _, h⟩ := bind_eq_ok.mp h
  cases compression with
  | plain =>
      obtain ⟨bits, hbits, h⟩ := bind_eq_ok.mp h
      cases h
      have hlt := plainBits_lt hbits
      have hsize := info.bitSize.toNat_lt
      have hcount : info.bitSize.toNat / bits ≤ info.bitSize.toNat := Nat.div_le_self ..
      refine ⟨⟨hoffset, Nat.lt_trans hlt (by decide), ?_, zero_lt_wordLimit⟩, ?_⟩
      · exact Nat.max_lt.mpr ⟨Nat.lt_trans (Nat.lt_of_le_of_lt hcount hsize) (by decide),
          one_lt_wordLimit⟩
      · have hfit := FieldInfo.mul_max_div_le bits info.bitSize.toNat
        refine Nat.le_trans hfit (Nat.max_le.mpr ⟨?_, ?_⟩)
        · exact Nat.le_of_lt (Nat.lt_trans hsize (by decide))
        · exact Nat.le_of_lt (Nat.lt_trans hlt (by decide))
  | immediate =>
      cases h
      refine ⟨⟨hoffset, hpacked, one_lt_wordLimit, zero_lt_wordLimit⟩, ?_⟩
      exact Nat.le_trans (Nat.le_of_eq (Nat.mul_one _)) (Nat.le_of_lt hpacked)
  | common =>
      obtain ⟨chunk, hchunk, h⟩ := bind_eq_ok.mp h
      cases h
      exact ⟨⟨hoffset, zero_lt_wordLimit, one_lt_wordLimit, stop_of_chunkAt hchunk⟩,
        Nat.zero_le _⟩
  | pallet =>
      obtain ⟨chunk, hchunk, h⟩ := bind_eq_ok.mp h
      cases h
      refine ⟨⟨hoffset, hpacked, one_lt_wordLimit, stop_of_chunkAt hchunk⟩, ?_⟩
      exact Nat.le_trans (Nat.le_of_eq (Nat.mul_one _)) (Nat.le_of_lt hpacked)
  | palletArray =>
      obtain ⟨chunk, hchunk, h⟩ := bind_eq_ok.mp h
      cases h
      refine ⟨⟨hoffset, hpacked, ?_, stop_of_chunkAt hchunk⟩, Nat.le_of_lt hpacked⟩
      exact Nat.max_lt.mpr ⟨info.third.toNat_lt, one_lt_wordLimit⟩

theorem areBounded_descriptors {fields : List FieldInfo} {infos : List StorageInfo} {index : Nat}
    {offsets : ChunkOffsets} {descriptors : List Descriptor}
    (h : StorageInfo.descriptors fields index offsets infos = .ok descriptors) :
    Descriptor.AreBounded (infos.length * wordLimit) descriptors := by
  induction infos generalizing index offsets descriptors with
  | nil =>
      cases h
      exact Descriptor.areBounded_nil _
  | cons info rest ih =>
      obtain ⟨⟨first, left⟩, hfirst, h⟩ := bind_eq_ok.mp h
      obtain ⟨others, hothers, h⟩ := bind_eq_ok.mp h
      cases h
      obtain ⟨hbounded, hbits⟩ := isBounded_descriptor hfirst
      rw [List.length_cons, Nat.succ_mul, Nat.add_comm]
      exact (ih hothers).cons hbounded hbits

end StorageInfo

namespace Descriptor

variable {h : Header} {layout : Layout}

theorem recordEnd_lt {offset : Nat} (hend : recordEnd h = .ok offset) : offset < wordLimit := by
  unfold recordEnd at hend
  split at hend
  · cases hend
  · cases hend
    exact Nat.not_le.mp ‹_›

theorem areBounded_outside {offset : Nat} (hend : recordEnd h = .ok offset) {storage : Storage}
    (hstorage : storage = .common 0 .none ∨ storage = .relationship) (count : Nat) :
    AreBounded 0 (List.replicate count ⟨offset, 32, 1, storage⟩) := by
  have houtside : IsBounded ⟨offset, 32, 1, storage⟩ ∧
      recordBits ⟨offset, 32, 1, storage⟩ ≤ 0 := by
    have hoffset := recordEnd_lt hend
    have hwidth : 32 < wordLimit := by decide
    rcases hstorage with rfl | rfl <;>
      exact ⟨⟨hoffset, hwidth, one_lt_wordLimit, zero_lt_wordLimit⟩, Nat.le_refl _⟩
  induction count with
  | zero => exact areBounded_nil 0
  | succ count ih => exact ih.cons houtside.1 houtside.2

theorem areBounded_commonColumns {columns : List Descriptor}
    (hcolumns : commonColumns h = .ok columns) : AreBounded 0 columns := by
  obtain ⟨offset, hend, hcolumns⟩ := bind_eq_ok.mp hcolumns
  cases hcolumns
  exact areBounded_outside hend (Or.inl rfl) _

theorem areBounded_relationshipColumn {column : Descriptor}
    (hcolumn : relationshipColumn h = .ok column) : AreBounded 0 [column] := by
  obtain ⟨offset, hend, hcolumn⟩ := bind_eq_ok.mp hcolumn
  cases hcolumn
  exact areBounded_outside hend (Or.inr rfl) 1

theorem length_of_findShared? (hlayout : layout.IsBounded h) {kind : SegmentKind}
    {segment : Segment} (hfound : layout.findShared? kind = some segment) :
    segment.length < 4 * wordLimit :=
  (hlayout.shared segment (List.mem_of_find?_eq_some hfound)).2

theorem ensures_readFieldInfos (source : Source) (hlayout : layout.IsBounded h) :
    Ensures (readFieldInfos source layout) fun infos => infos.length < wordLimit := by
  unfold readFieldInfos
  cases hfound : layout.findShared? .fieldInfo with
  | none => exact ensures_pure (by decide)
  | some segment =>
      have hlength := length_of_findShared? hlayout hfound
      refine ensures_bind fun block => ensures_lift fun infos hinfos => ?_
      rw [Parse.length_of_decode_many hinfos]
      omega

theorem ensures_readStorageInfos (source : Source) (hlayout : layout.IsBounded h) :
    Ensures (readStorageInfos source layout) fun infos => infos.length < wordLimit := by
  unfold readStorageInfos
  cases hfound : layout.findShared? .fieldStorageInfo with
  | none => exact ensures_pure (by decide)
  | some segment =>
      have hlength := length_of_findShared? hlayout hfound
      dsimp only
      split
      · exact ensures_throw_bind _ _
      · refine ensures_bind fun block => ensures_lift fun infos hinfos => ?_
        rw [Parse.length_of_decode_many hinfos, StorageInfo.entrySize]
        omega

/-- A schema of that many fields is one that fits in the memory of a machine. -/
def schemaLimit : Nat :=
  0x1000000

theorem areBounded_of_fieldInfos {infos : List FieldInfo} (hlength : infos.length < wordLimit)
    {columns : List Descriptor} (hcolumns : FieldInfo.descriptors h 0 infos = .ok columns) :
    AreBounded (positionLimit - 1) columns := by
  refine (FieldInfo.areBounded_descriptors hcolumns).mono ?_
  rw [wordLimit] at *
  rw [positionLimit]
  omega

theorem ensures_readColumns (source : Source) (hlayout : layout.IsBounded h) {schema : Schema}
    (hschema : schema.fields.length < schemaLimit) :
    Ensures (readColumns source h layout schema) (AreBounded (positionLimit - 1)) := by
  unfold readColumns
  cases h.signature with
  | wdbc | wdb2 =>
      refine ensures_pure ((areBounded_consecutive (Nat.zero_le _) _).mono ?_)
      rw [schemaLimit] at hschema
      rw [positionLimit, wordLimit]
      omega
  | wdb3 | wdb4 => exact ensures_throw _
  | wdb5 =>
      exact (ensures_readFieldInfos source hlayout).bind fun infos hlength =>
        ensures_lift fun _ => areBounded_of_fieldInfos hlength
  | wdb6 =>
      refine (ensures_readFieldInfos source hlayout).bind fun infos hlength => ?_
      refine Ensures.bind (ensures_lift fun _ => areBounded_of_fieldInfos hlength)
        fun columns hcolumns => ?_
      refine Ensures.bind (Q := AreBounded 0)
        (ensures_lift fun _ => areBounded_commonColumns) fun others hothers => ensures_pure ?_
      exact hcolumns.append hothers
  | wdc1 | wdc2 =>
      refine ensures_bind fun fields => ?_
      refine (ensures_readStorageInfos source hlayout).bind fun infos hlength =>
        ensures_lift fun columns hcolumns => ?_
      refine (StorageInfo.areBounded_descriptors hcolumns).mono ?_
      rw [wordLimit] at *
      rw [positionLimit]
      omega

theorem ensures_readAll_areBounded (source : Source) (hlayout : layout.IsBounded h)
    {schema : Schema} (hschema : schema.fields.length < schemaLimit) :
    Ensures (readAll source h layout schema) (AreBounded (positionLimit - 1)) := by
  intro count descriptors hread
  obtain ⟨columns, hcolumns, hcompletes⟩ :=
    ensures_readAll (ensures_readColumns source hlayout hschema) count descriptors hread
  cases hcompletes with
  | columns => exact hcolumns
  | related hlast => exact hcolumns.append (areBounded_relationshipColumn hlast)

end Descriptor

theorem SlotRun.element_lt_of_mem {descriptors : List Descriptor}
    (hbounded : ∀ d ∈ descriptors, d.IsBounded) {slot : Slot}
    (h : slot ∈ flatten (ofDescriptors descriptors)) : slot.element < wordLimit := by
  obtain ⟨r, hr, hslot⟩ := List.mem_flatMap.mp h
  obtain ⟨⟨d, index⟩, hd, rfl⟩ := List.mem_map.mp hr
  obtain ⟨element, helement, rfl⟩ := List.mem_map.mp hslot
  have hmem : d ∈ descriptors := List.mem_of_getElem? (List.mem_zipIdx_iff_getElem?.mp hd)
  have hlt : element < 0 + d.cardinality := (List.mem_range'_1.mp helement).2
  rw [Nat.zero_add] at hlt
  exact Nat.lt_trans hlt (hbounded d hmem).cardinality

theorem Mapping.isBounded_of_build {schema : Schema} {descriptors : List Descriptor}
    (hbounded : ∀ d ∈ descriptors, d.IsBounded) {column : Nat} {indexed : Bool} {m : Mapping}
    (h : build schema descriptors column indexed = .ok m) : m.IsBounded :=
  fun _ hp _ hslot =>
    SlotRun.element_lt_of_mem hbounded ((built_of_build h).mem_flatten hp hslot)

end ClientTable
