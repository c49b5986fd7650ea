import ClientTable.Proofs.ConsecutiveFields
import ClientTable.Proofs.RowElements

namespace ClientTable

open Attempt

section

variable {kind : IntKind} {width : Nat} {n : Int}

/-- The integer that is read from the two's complement of a number without looking at its sign. -/
def IntKind.unsignedReading (kind : IntKind) (width : Nat) (n : Int) : Int :=
  if 0 ≤ n ∨ width = kind.bits then n else n + 2 ^ width

theorem ofInt_add_two_pow (width : Nat) (n : Int) :
    BitVec.ofInt width (n + 2 ^ width) = BitVec.ofInt width n := by
  refine BitVec.eq_of_toNat_eq ?_
  rw [BitVec.toNat_ofInt, BitVec.toNat_ofInt]
  push_cast
  rw [Int.add_emod_right]

theorem Holdable.add_two_pow (hheld : Holdable width true n) (hneg : n < 0) :
    Holdable width false (n + 2 ^ width) := by
  obtain ⟨hlow, -⟩ : -(2 : Int) ^ (width - 1) ≤ n ∧ n < 2 ^ (width - 1) := hheld
  have hhalf : (2 : Int) ^ (width - 1) ≤ 2 ^ width :=
    pow_le_pow_right₀ (by decide) (Nat.sub_le width 1)
  change 0 ≤ n + 2 ^ width ∧ n + 2 ^ width < 2 ^ width
  omega

theorem Holdable.unsigned (hheld : Holdable width true n) (hnonneg : 0 ≤ n) :
    Holdable width false n := by
  obtain ⟨-, hhigh⟩ : -(2 : Int) ^ (width - 1) ≤ n ∧ n < 2 ^ (width - 1) := hheld
  have hhalf : (2 : Int) ^ (width - 1) ≤ 2 ^ width :=
    pow_le_pow_right₀ (by decide) (Nat.sub_le width 1)
  change 0 ≤ n ∧ n < 2 ^ width
  omega

theorem Scalar.ofWord_word_unsigned (hsigned : kind.signed = true) (hpositive : 1 ≤ width)
    (hwide : width ≤ kind.bits) (hheld : Holdable width true n) :
    ofWord (BitField.word ⟨width, BitVec.ofInt width n⟩ false) (.int kind) =
      .ok (ofInt kind (kind.unsignedReading width n)) := by
  have hsmall := kind.bits_le
  have hplain {m : Int} (hm : Holdable width false m) :
      ofWord (BitField.word ⟨width, BitVec.ofInt width m⟩ false) (.int kind) =
        .ok (ofInt kind m) := by
    rw [BitField.word_ofInt hpositive (hwide.trans hsmall) hm]
    exact congrArg (fun bits => Except.ok (Scalar.int kind bits)) (setWidth_ofInt hsmall m)
  unfold IntKind.unsignedReading
  split
  case isTrue hsame =>
    rcases hsame with hnonneg | hfull
    · exact hplain (hheld.unsigned hnonneg)
    · -- The kind finds the sign in its own highest bit.
      rw [← hsigned] at hheld
      exact ofWord_word hpositive hwide hheld (.inr hfull)
  case isFalse hdiffers =>
    have hneg : n < 0 := Int.not_le.mp fun hnonneg => hdiffers (.inl hnonneg)
    rw [← ofInt_add_two_pow]
    exact hplain (hheld.add_two_pow hneg)

end

namespace RowContext

/-- Where the element is read, the row holds the two's complement of the number. -/
def HoldsNumber (c : RowContext) (d : Descriptor) (element : Nat) (state : RowState) (n : Int) :
    Prop :=
  BitField.StoredAt state.bits.data
    (if c.isVariable then state.bits.cursor else d.bitOffset + element * d.bitSize)
    ⟨d.bitSize, BitVec.ofInt d.bitSize n⟩

variable {c : RowContext} {index element : Nat} {d : Descriptor} {state : RowState} {n : Int}

theorem on_inlineWord_of_holds (hwidth : 1 ≤ d.bitSize ∧ d.bitSize ≤ 64)
    (h : c.HoldsNumber d element state n) (signed : Bool) :
    ((c.inlineWord d element signed).on state).1 =
      .ok (BitField.word ⟨d.bitSize, BitVec.ofInt d.bitSize n⟩ signed) := by
  unfold HoldsNumber at h
  unfold inlineWord
  cases hmode : c.isVariable with
  | true =>
      rw [hmode, if_pos rfl] at h
      rw [if_pos rfl, Decode.bits, on_focus, BitRead.on_word,
        h.readWordAt hwidth.1 hwidth.2 signed]
  | false =>
      rw [hmode, if_neg Bool.false_ne_true] at h
      rw [if_neg Bool.false_ne_true, on_bind_of_ok (on_get state)]
      exact h.readWordAt hwidth.1 hwidth.2 signed

/-- What is read for a number that stands in the row depends on whether its column is signed. -/
theorem on_element_of_holds {kind : IntKind} (hd : c.descriptors[index]? = some d)
    (hinline : d.isInline = true) (hsigned : kind.signed = true) (hpositive : 1 ≤ d.bitSize)
    (hwide : d.bitSize ≤ kind.bits) (hheld : Holdable d.bitSize true n)
    (h : c.HoldsNumber d element state n) :
    ((c.element index element (.int kind)).on state).1 = .ok (Scalar.ofInt kind
      (if d.isSigned then n else kind.unsignedReading d.bitSize n)) := by
  have hword := on_inlineWord_of_holds ⟨hpositive, hwide.trans kind.bits_le⟩ h d.isSigned
  have hkind : FieldKind.int kind ≠ .text := nofun
  rw [on_element_number hd hinline hkind, on_bind]
  rcases hread : (c.inlineWord d element d.isSigned).on state with ⟨_ | word, after⟩
  · rw [hread] at hword
    cases hword
  · rw [hread] at hword
    obtain rfl := Except.ok.inj hword
    change Scalar.ofWord _ (.int kind) = _
    cases hsign : d.isSigned with
    | true =>
        rw [← hsigned] at hheld
        exact Scalar.ofWord_word hpositive hwide hheld (.inl hsigned.symm)
    | false => exact Scalar.ofWord_word_unsigned hsigned hpositive hwide hheld

end RowContext

/-- What reading a slot gives: its element, or the common data that the record has for it. -/
def RowContext.slotScalar (c : RowContext) (slot : Slot) (kind : FieldKind) (id : Option UInt32) :
    Decode Scalar :=
  if slot.isCommon then c.commonElement slot.descriptor kind id
  else c.element slot.descriptor slot.element kind

/-- The word that a table has for a slot of the row. -/
inductive RowContext.HasWord (c : RowContext) (slot : Slot) (id : Option UInt32) (state : RowState)
    (word : UInt32) : Prop
  | pallet {d : Descriptor} {chunk : Chunk} {table : PalletTable} {stored : BitVec 64}
    {after : RowState} (hd : c.descriptors[slot.descriptor]? = some d)
    (hstorage : d.storage = .pallet chunk) (hslot : slot.isCommon = false)
    (htable : c.pallet = some table)
    (hread : (c.inlineWord d slot.element false).on state = (.ok stored, after))
    (hword : table.word chunk.start stored.toNat = .ok word)
  | palletArray {d : Descriptor} {chunk : Chunk} {table : PalletTable} {stored : Nat}
    {after : RowState} (hd : c.descriptors[slot.descriptor]? = some d)
    (hstorage : d.storage = .palletArray chunk) (hslot : slot.isCommon = false)
    (htable : c.pallet = some table)
    (hread : (c.palletArrayIndex slot.descriptor d).on state = (.ok stored, after))
    (hlimit : stored * d.cardinality + slot.element < positionLimit)
    (hword : table.word chunk.start (stored * d.cardinality + slot.element) = .ok word)
  | relationship {d : Descriptor} (hd : c.descriptors[slot.descriptor]? = some d)
    (hstorage : d.storage = .relationship) (hslot : slot.isCommon = false)
    (hword : (c.relationships.bind fun table =>
      table.foreignKey? (UInt32.ofNat c.index)).getD 0 = word)
  | common {d : Descriptor} {default : UInt32} {chunk : Chunk}
    (hd : c.descriptors[slot.descriptor]? = some d)
    (hstorage : d.storage = .common default chunk) (hslot : slot.isCommon = true)
    (hword : (c.common.bind fun table => id.bind fun id =>
      table.value? slot.descriptor id).getD default = word)

namespace RowContext

variable {c : RowContext} {slot : Slot} {id : Option UInt32} {state : RowState} {word : UInt32}

theorem on_palletScalar {table : PalletTable} {chunk i : Nat} (htable : c.pallet = some table)
    (hword : table.word chunk i = .ok word) (kind : FieldKind) (state : RowState) :
    (do wordScalar (← (← c.palletTable).word chunk i) kind : Decode Scalar).on state =
      (wordScalar word kind).on state := by
  unfold palletTable
  rw [htable]
  change (liftM (table.word chunk i) >>= fun word => wordScalar word kind : Decode Scalar).on state
    = _
  rw [hword]
  rfl

theorem HasWord.on_slotScalar (h : c.HasWord slot id state word) (kind : FieldKind) :
    ∃ after, (c.slotScalar slot kind id).on state = (wordScalar word kind).on after := by
  unfold slotScalar
  cases h with
  | pallet hd hstorage hslot htable hread hword =>
      rw [hslot, if_neg Bool.false_ne_true]
      unfold element
      rw [on_descriptor_bind hd, hstorage]
      dsimp only
      rw [on_bind_of_ok hread]
      exact ⟨_, on_palletScalar htable hword kind _⟩
  | palletArray hd hstorage hslot htable hread hlimit hword =>
      rw [hslot, if_neg Bool.false_ne_true]
      unfold element
      rw [on_descriptor_bind hd, hstorage]
      dsimp only
      rw [on_bind_of_ok hread, if_neg (Nat.not_le.mpr hlimit)]
      exact ⟨_, on_palletScalar htable hword kind _⟩
  | relationship hd hstorage hslot hword =>
      rw [hslot, if_neg Bool.false_ne_true]
      unfold element
      rw [on_descriptor_bind hd, hstorage, ← hword]
      exact ⟨state, rfl⟩
  | common hd hstorage hslot hword =>
      rw [hslot, if_pos rfl]
      unfold commonElement
      rw [on_descriptor_bind hd, hstorage, ← hword]
      exact ⟨state, rfl⟩

theorem on_wordScalar_of_signed {kind : IntKind} {n : Int} (hsigned : kind.signed = true)
    (hwide : 32 ≤ kind.bits) (hheld : Holdable 32 true n)
    (hword : word.toBitVec = BitVec.ofInt 32 n) (state : RowState) :
    ((wordScalar word (.int kind)).on state).1 = .ok (Scalar.ofInt kind n) := by
  have hscalar : Scalar.ofWord (BitField.word ⟨32, BitVec.ofInt 32 n⟩ true) (.int kind) =
      .ok (Scalar.ofInt kind n) := by
    rw [← hsigned] at hheld
    exact Scalar.ofWord_word (by decide) hwide hheld (.inl hsigned.symm)
  change Scalar.ofWord (if kind.signed then word.toBitVec.signExtend 64
    else word.toBitVec.setWidth 64) (.int kind) = _
  rw [if_pos hsigned, hword]
  exact hscalar

end RowContext

namespace Descriptor

theorem storage_of_storageInfo {index : Nat} {field? : Option FieldInfo}
    {offsets left : ChunkOffsets} {info : StorageInfo} {d : Descriptor}
    (h : info.descriptor index field? offsets = .ok (d, left)) : d.storage ≠ .plain true := by
  obtain ⟨compression, -, h⟩ := bind_eq_ok.mp h
  cases compression with
  | plain =>
      obtain ⟨bits, -, h⟩ := bind_eq_ok.mp h
      cases h
      nofun
  | immediate =>
      cases h
      nofun
  | common | pallet | palletArray =>
      obtain ⟨chunk, -, h⟩ := bind_eq_ok.mp h
      cases h
      nofun

theorem storage_of_storageInfos {fields : List FieldInfo} {index : Nat} {offsets : ChunkOffsets}
    {infos : List StorageInfo} {columns : List Descriptor}
    (hcolumns : StorageInfo.descriptors fields index offsets infos = .ok columns) :
    ∀ d ∈ columns, d.storage ≠ .plain true := by
  induction infos generalizing index offsets columns with
  | nil =>
      cases hcolumns
      nofun
  | cons info infos ih =>
      obtain ⟨⟨first, left⟩, hfirst, hcolumns⟩ := bind_eq_ok.mp hcolumns
      obtain ⟨others, hothers, hcolumns⟩ := bind_eq_ok.mp hcolumns
      cases hcolumns
      exact List.forall_mem_cons.mpr ⟨storage_of_storageInfo hfirst, ih hothers⟩

theorem storage_of_fieldInfos {h : Header} {index : Nat} {infos : List FieldInfo}
    {columns : List Descriptor} (hcolumns : FieldInfo.descriptors h index infos = .ok columns) :
    ∀ d ∈ columns, d.storage ≠ .plain true := by
  intro d hd
  rw [(FieldInfo.plain_of_descriptors hcolumns).2 d hd]
  nofun

theorem ensures_readColumns_storage (source : Source) {h : Header}
    (hinfo : h.signature.hasFieldInfo = true) (layout : Layout) (schema : Schema) :
    Ensures (readColumns source h layout schema) fun columns =>
      ∀ d ∈ columns, d.storage ≠ .plain true := by
  unfold readColumns
  cases hsignature : h.signature with
  | wdbc | wdb2 =>
      rw [hsignature] at hinfo
      cases hinfo
  | wdb3 | wdb4 => exact ensures_throw _
  | wdb5 => exact ensures_bind fun infos => ensures_lift fun _ => storage_of_fieldInfos
  | wdb6 =>
      refine ensures_bind fun infos => ?_
      refine Ensures.bind (ensures_lift fun _ => storage_of_fieldInfos) fun columns hcolumns => ?_
      refine Ensures.bind (Q := fun others => commonColumns h = .ok others)
        (ensures_lift fun _ => id) fun others hothers => ensures_pure ?_
      obtain ⟨offset, -, hothers⟩ := bind_eq_ok.mp hothers
      cases hothers
      intro d hd
      rcases List.mem_append.mp hd with hd | hd
      · exact hcolumns d hd
      · rw [List.eq_of_mem_replicate hd]
        nofun
  | wdc1 | wdc2 =>
      exact ensures_bind fun fields => ensures_bind fun infos =>
        ensures_lift fun _ => storage_of_storageInfos

theorem ensures_readAll_storage (source : Source) {h : Header}
    (hinfo : h.signature.hasFieldInfo = true) (layout : Layout) (schema : Schema) :
    Ensures (readAll source h layout schema) fun descriptors =>
      ∀ d ∈ descriptors, d.storage ≠ .plain true := by
  refine (ensures_readAll (ensures_readColumns_storage source hinfo layout schema)).mono ?_
  rintro descriptors ⟨columns, hcolumns, hcompletes⟩
  cases hcompletes with
  | columns => exact hcolumns
  | related hlast =>
      obtain ⟨offset, -, hlast⟩ := bind_eq_ok.mp hlast
      cases hlast
      intro d hd
      rcases List.mem_append.mp hd with hd | hd
      · exact hcolumns d hd
      · rw [List.mem_singleton.mp hd]
        nofun

end Descriptor

namespace Reader

/-- Where the row holds the two's complement of a number in an element, the element is read as
another number, and so it is in the records of the row. -/
structure ReadsNumber (reader : Reader) (h : Header) (layout : SectionLayout) (s : Section)
    (row : Row) (slot : Slot) (d : Descriptor) (kind : IntKind) (held given : Int) : Prop where
  read : ∀ shared state,
    (s.context reader.metadata shared row).HoldsNumber d slot.element state held →
    (((s.context reader.metadata shared row).element slot.descriptor slot.element
      (.int kind)).on state).1 = .ok (Scalar.ofInt kind given)
  record : ∀ records base field position, reader.HasRecord records h layout s row base →
    reader.Feeds layout slot (.int kind) field position →
    ∃ state, s.ComesTo reader.source reader.metadata records.shared row (.int kind) slot state ∧
      reader.source.block row.offset row.length = .ok state.bits.data ∧
      ((s.context reader.metadata records.shared row).HoldsNumber d slot.element state held →
        base.element? field position = some (Scalar.ofInt kind given))

variable {stream : Stream} {schema : Schema} {options : Options} {reader : Reader} {count : Nat}
  {h : Header} {layout : SectionLayout} {s : Section} {kind : IntKind}

theorem readsNumber (hopen : ((ofStream stream schema options).on count).1 = .ok reader)
    (hsection : reader.HasSection h layout s) (row : Row) (hsigned : kind.signed = true)
    {index : Nat} (element : Nat) {d : Descriptor} {n : Int}
    (hd : reader.metadata.descriptors[index]? = some d) (hinline : d.isInline = true)
    (hpositive : 1 ≤ d.bitSize) (hwide : d.bitSize ≤ kind.bits)
    (hheld : Holdable d.bitSize true n) :
    reader.ReadsNumber h layout s row ⟨index, element, false⟩ d kind n
      (if d.isSigned then n else kind.unsignedReading d.bitSize n) := by
  have hread (shared : SharedTables) (state : RowState)
      (hholds : (s.context reader.metadata shared row).HoldsNumber d element state n) :
      (((s.context reader.metadata shared row).element index element (.int kind)).on state).1 =
        .ok (Scalar.ofInt kind (if d.isSigned then n else kind.unsignedReading d.bitSize n)) :=
    RowContext.on_element_of_holds hd hinline hsigned hpositive hwide hheld hholds
  refine ⟨hread, fun records base field position hbase hfeeds => ?_⟩
  obtain ⟨v, state, hv, hcomes, hvalue⟩ :=
    hbase.exists_read hopen hfeeds hd (Descriptor.isCommon_of_isInline hinline)
  refine ⟨state, hcomes, (hcomes.holds hsection.fresh.strings).1, fun hholds => ?_⟩
  rw [hv]
  exact congrArg some (Except.ok.inj (hvalue.symm.trans (hread records.shared state hholds)))

/-- Numbers of the width of their column are read without their sign if a file describes its fields,
so that negative ones are others in a wider kind. They are what they were if the fields follow from
the schema, if their column is packed and signed, or if they are words of a table. -/
theorem narrow_columns (hopen : ((ofStream stream schema options).on count).1 = .ok reader)
    (hsection : reader.HasSection h layout s) (row : Row) (hsigned : kind.signed = true) :
    (∀ index element d n, reader.metadata.descriptors[index]? = some d → 1 ≤ d.bitSize →
      d.bitSize ≤ kind.bits → Holdable d.bitSize true n →
      (h.signature.hasFieldInfo = true → (∃ signed, d.storage = .plain signed) →
        reader.ReadsNumber h layout s row ⟨index, element, false⟩ d kind n
          (kind.unsignedReading d.bitSize n)) ∧
      (h.signature.hasFieldInfo = false →
        ∀ f, schema.fields[index]? = some f → f.kind = .int kind →
          reader.ReadsNumber h layout s row ⟨index, element, false⟩ d kind n n) ∧
      (d.storage = .immediate true →
        reader.ReadsNumber h layout s row ⟨index, element, false⟩ d kind n n)) ∧
    ∀ (word : UInt32) (n : Int), 32 ≤ kind.bits → Holdable 32 true n →
      word.toBitVec = BitVec.ofInt 32 n →
      ∀ shared slot id state, (s.context reader.metadata shared row).HasWord slot id state word →
        (((s.context reader.metadata shared row).slotScalar slot (.int kind) id).on state).1 =
          .ok (Scalar.ofInt kind n) := by
  obtain ⟨hplan, hread⟩ := (ensures_isRead stream schema options count reader hopen).of_header
    hsection.isHeader
  refine ⟨fun index element d n hd hpositive hwide hheld => ⟨?_, ?_, ?_⟩, ?_⟩
  · rintro hinfo ⟨signed, hstorage⟩
    have hunsigned := hread.of_ensures (Descriptor.ensures_readAll_storage reader.source hinfo
      reader.metadata.layout schema) d (List.mem_of_getElem? hd)
    rw [hstorage] at hunsigned
    have hsign : d.isSigned = false := by
      rw [Descriptor.isSigned, hstorage]
      exact Bool.eq_false_iff.mpr fun htrue => hunsigned (congrArg Storage.plain htrue)
    have hreads := readsNumber hopen hsection row hsigned element hd
      (by rw [Descriptor.isInline, hstorage]) hpositive hwide hheld
    rwa [hsign, if_neg Bool.false_ne_true] at hreads
  · -- Fields that follow from the schema have the sign of their kind.
    intro hinfo f hf hkind
    have hsimple : h.signature = .wdbc ∨ h.signature = .wdb2 :=
      or_iff_not_imp_left.mpr (by simpa [Signature.hasFieldInfo] using hinfo)
    obtain ⟨habsent, -⟩ := Layout.absent_of_plan_simple hsimple hplan
    have hall := hread.of_ensures (Descriptor.ensures_readAll_of_simple hsimple habsent)
    have hfield := Descriptor.getElem?_consecutive (Nat.zero_le _) hf
    rw [← hall, hd, hkind, Option.some.injEq] at hfield
    have hinline : d.isInline = true := by
      rw [hfield]
      rfl
    have hsign : d.isSigned = true := by
      rw [hfield]
      exact hsigned
    have hreads := readsNumber hopen hsection row hsigned element hd hinline hpositive hwide hheld
    rwa [if_pos hsign] at hreads
  · intro hstorage
    have hreads := readsNumber hopen hsection row hsigned element hd
      (by rw [Descriptor.isInline, hstorage]) hpositive hwide hheld
    rwa [Descriptor.isSigned, hstorage, if_pos rfl] at hreads
  · intro word n hwide hheld hword shared slot id state hhas
    obtain ⟨after, hafter⟩ := hhas.on_slotScalar (.int kind)
    rw [hafter]
    exact RowContext.on_wordScalar_of_signed hsigned hwide hheld hword after

/-- A record of one column of 24 bits, all of them set. -/
def narrowColumn : Bytes :=
  wordFile .wdb5 [1, 1, 3, 0, 0, 0, 0, 0, 0, 0, 0, 8] ++ [255, 255, 255]

def narrowVariable : Bytes :=
  wordFile .wdb5 [1, 1, 3, 55, 0, 0, 0, 0, 0, 0, 1, 8] ++ [255, 255, 255, 52, 0, 0, 0, 3, 0]

def valueSchema : Schema :=
  ⟨[.scalar "value" .i32]⟩

theorem narrow_columns_narrowColumn :
    ∃ f ∈ firstRecord? narrowColumn valueSchema,
      ((ofStream ⟨narrowColumn, 0, none⟩ valueSchema .default).on 0).1 = .ok f.reader ∧
      f.reader.HasSection f.header f.layout f.opened ∧
      IntKind.signed ⟨.w32, true⟩ = true ∧
      f.reader.metadata.descriptors[0]? = some ⟨0, 24, 1, .plain false⟩ ∧
      f.header.signature.hasFieldInfo = true ∧ Holdable 24 true (-1) ∧
      f.reader.ReadsNumber f.header f.layout f.opened f.row ⟨0, 0, false⟩ ⟨0, 24, 1, .plain false⟩
        ⟨.w32, true⟩ (-1) 16777215 := by
  have hrun : ∃ f ∈ firstRecord? narrowColumn valueSchema,
      f.reader.metadata.descriptors[0]? = some ⟨0, 24, 1, .plain false⟩ ∧
      f.header.signature.hasFieldInfo = true := by
    decide +kernel
  obtain ⟨f, hf, hd, hinfo⟩ := hrun
  obtain ⟨hopen, -, hrecord⟩ := FirstRecord.hasRecord hf
  have hsection := hrecord.hasSection
  have hheld : Holdable 24 true (-1) := by decide
  have hsigned : IntKind.signed ⟨.w32, true⟩ = true := rfl
  obtain ⟨hplain, -, -⟩ := (narrow_columns hopen hsection f.row hsigned).1 0 0 _ (-1) hd
    (by decide) (by decide) hheld
  exact ⟨f, hf, hopen, hsection, hsigned, hd, hinfo, hheld, hplain hinfo ⟨false, rfl⟩⟩

/-- The first record of the file has another number than the one whose two's complement it holds in
its column of 24 bits. -/
def Misreads (file : Bytes) (held given : Int) : Prop :=
  ∃ f ∈ firstRecord? file valueSchema,
    f.reader.HasRecord f.records f.header f.layout f.opened f.row f.base ∧
    f.reader.metadata.descriptors[0]? = some ⟨0, 24, 1, .plain false⟩ ∧
    BitField.StoredAt f.data 0 ⟨24, BitVec.ofInt 24 held⟩ ∧
    f.base.element? 0 0 = some (Scalar.ofInt ⟨.w32, true⟩ given) ∧
    Scalar.ofInt ⟨.w32, true⟩ given ≠ Scalar.ofInt ⟨.w32, true⟩ held

theorem misreads_of_run {file : Bytes} {held given : Int}
    (hrun : ∃ f ∈ firstRecord? file valueSchema,
      f.reader.metadata.descriptors[0]? = some ⟨0, 24, 1, .plain false⟩ ∧
      (0 + 24 ≤ 8 * f.data.length ∧
        littleEndian f.data / 2 ^ 0 % 2 ^ 24 = (BitVec.ofInt 24 held).toNat) ∧
      f.base.element? 0 0 = some (Scalar.ofInt ⟨.w32, true⟩ given))
    (hne : Scalar.ofInt ⟨.w32, true⟩ given ≠ Scalar.ofInt ⟨.w32, true⟩ held) :
    Misreads file held given := by
  obtain ⟨f, hf, hd, hstored, hvalue⟩ := hrun
  obtain ⟨-, -, hrecord⟩ := FirstRecord.hasRecord hf
  exact ⟨f, hf, hrecord, hd, hstored, hvalue, hne⟩

/-- A negative number of 24 bits is read as a positive one, in rows of one size and in others. -/
theorem narrow_columns_of_negative :
    Misreads narrowColumn (-1) 16777215 ∧ Misreads narrowVariable (-1) 16777215 :=
  ⟨misreads_of_run (by decide +kernel) (by decide), misreads_of_run (by decide +kernel) (by decide)⟩

end Reader

end ClientTable
