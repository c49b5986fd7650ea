import ClientTable.Proofs.Outcomes
import ClientTable.Proofs.RecordKeys

namespace ClientTable

open Attempt Reading

namespace IntKind

def limit (kind : IntKind) : Nat :=
  if kind.signed then 2 ^ (kind.bits - 1) else 2 ^ kind.bits

/-- The key that is left of an entry in an integer of a kind: the low bits, if they are not those of
a negative number. -/
def keyOf (kind : IntKind) (entry : UInt32) : Option UInt32 :=
  if entry.toNat % 2 ^ kind.bits < kind.limit then
    some (UInt32.ofNat (entry.toNat % 2 ^ kind.bits))
  else none

theorem two_pow_bits (kind : IntKind) : 2 ^ kind.bits = 2 * 2 ^ (kind.bits - 1) := by
  have hpos : 0 < kind.bits := by
    obtain ⟨width, signed⟩ := kind
    cases width <;> exact Nat.succ_pos _
  rw [← Nat.pow_succ', Nat.succ_eq_add_one, Nat.sub_add_cancel hpos]

theorem limit_le (kind : IntKind) : kind.limit ≤ 2 ^ kind.bits := by
  unfold limit
  split
  · exact Nat.pow_le_pow_right (by decide) (Nat.sub_le ..)
  · exact Nat.le_refl _

theorem keyOf_eq_some_iff (kind : IntKind) (entry : UInt32) :
    kind.keyOf entry = some entry ↔ entry.toNat < kind.limit := by
  have hentry := entry.toNat_lt
  unfold keyOf
  constructor
  · intro h
    split at h
    case isTrue hlow =>
      have hkey := congrArg UInt32.toNat (Option.some.inj h)
      have hsmall : entry.toNat % 2 ^ kind.bits < 2 ^ 32 :=
        Nat.lt_of_le_of_lt (Nat.mod_le ..) hentry
      rw [UInt32.toNat_ofNat_of_lt' hsmall] at hkey
      rwa [hkey] at hlow
    case isFalse => cases h
  · intro h
    have hheld : entry.toNat % 2 ^ kind.bits = entry.toNat :=
      Nat.mod_eq_of_lt (Nat.lt_of_lt_of_le h kind.limit_le)
    rw [hheld, if_pos h, UInt32.ofNat_toNat]

theorem toInt_eq_of_lt {kind : IntKind} {bits : BitVec kind.bits} (h : bits.toNat < kind.limit) :
    kind.toInt bits = bits.toNat := by
  unfold limit at h
  unfold toInt
  split
  case isTrue hsigned =>
    rw [if_pos hsigned] at h
    have hhalf := kind.two_pow_bits
    rw [BitVec.toInt_eq_toNat_cond, if_pos (by omega)]
  case isFalse => rfl

theorem toInt_neg_of_le {kind : IntKind} {bits : BitVec kind.bits} (h : kind.limit ≤ bits.toNat) :
    kind.toInt bits < 0 := by
  have hlt := bits.isLt
  unfold limit at h
  unfold toInt
  split
  case isTrue hsigned =>
    rw [if_pos hsigned] at h
    have hhalf := kind.two_pow_bits
    rw [BitVec.toInt_eq_toNat_cond, if_neg (by omega)]
    omega
  case isFalse hunsigned =>
    rw [if_neg hunsigned] at h
    omega

end IntKind

theorem Scalar.toWord?_of_low {kind : IntKind} {bits : BitVec kind.bits} {entry : UInt32}
    (hbits : bits.toNat = entry.toNat % 2 ^ kind.bits) :
    (int kind bits).toWord? = kind.keyOf entry := by
  have hentry := entry.toNat_lt
  have hle : entry.toNat % 2 ^ kind.bits ≤ entry.toNat := Nat.mod_le ..
  unfold toWord? toInt? IntKind.keyOf
  dsimp only
  by_cases hlow : entry.toNat % 2 ^ kind.bits < kind.limit
  · have hint := IntKind.toInt_eq_of_lt (hbits.symm ▸ hlow)
    rw [hbits] at hint
    have hsmall : ((entry.toNat % 2 ^ kind.bits : Nat) : Int) < 0x100000000 := by omega
    rw [if_pos hlow, hint, if_pos (by omega)]
    dsimp only
    rw [if_pos ⟨Int.natCast_nonneg _, hsmall⟩, Int.toNat_natCast]
  · have hneg := IntKind.toInt_neg_of_le (hbits.symm ▸ Nat.not_lt.mp hlow)
    rw [if_neg hlow, if_pos (by omega)]
    dsimp only
    rw [if_neg fun hboth => absurd hboth.1 (by omega)]

theorem Scalar.toWord?_of_entry (kind : IntKind) (entry : UInt32) :
    (int kind ((entry.toBitVec.setWidth 64).setWidth kind.bits)).toWord? = kind.keyOf entry := by
  have hentry := entry.toNat_lt
  apply toWord?_of_low
  rw [BitVec.toNat_setWidth, BitVec.toNat_setWidth, UInt32.toNat_toBitVec,
    Nat.mod_eq_of_lt (show entry.toNat < 2 ^ 64 by omega)]

theorem Section.Fresh.index_row {source : Source} {h : Header} {layout : SectionLayout}
    {s : Section} (fresh : s.Fresh source h layout) {i : Nat} {row : Row}
    (hrow : s.rows.rows[i]? = some row) : row.index = i := by
  cases hmap : h.hasOffsetMap with
  | false =>
      obtain ⟨area, _, hrows⟩ := fresh.fixed hmap
      rw [hrows, RowCursor.rows, List.getElem?_map] at hrow
      obtain ⟨index, hindex, rfl⟩ := Option.map_eq_some_iff.mp hrow
      obtain ⟨_, hvalue⟩ := List.getElem?_eq_some_iff.mp hindex
      rw [List.getElem_range'] at hvalue
      change index = i
      omega
  | true =>
      obtain ⟨segment, used, _, _, _, hrows⟩ := fresh.located hmap
      rw [hrows, RowCursor.rows, List.getElem?_map] at hrow
      obtain ⟨⟨l, index⟩, hindex, rfl⟩ := Option.map_eq_some_iff.mp hrow
      rw [List.getElem?_zipIdx] at hindex
      obtain ⟨_, _, hpair⟩ := Option.map_eq_some_iff.mp hindex
      cases hpair
      exact Nat.zero_add i

namespace Mapping

theorem value_of_indexed {c : RowContext} {schema : Schema} {descriptors : List Descriptor}
    {column : Nat} {m : Mapping} {texts : Bytes} {entry : UInt32} {values : List Value}
    {s t : RowState} (hbuild : build schema descriptors column true = .ok m)
    (hs : s.strings.Keeps texts) (h : (m.values c (some entry)).on s = (.ok values, t)) :
    m.keyField = column ∧ ∃ f v, schema.fields[column]? = some f ∧
      Scalar.ofWord (entry.toBitVec.setWidth 64) f.kind = .ok v ∧
      values[column]? = some (.scalar v) := by
  obtain ⟨hregular, hfield, f, hf, hfed⟩ := of_build_indexed hbuild
  obtain ⟨body, u, id, fields, hbody, _, rfl, hall⟩ := on_values hregular hs h
  obtain ⟨_, _, elements, _, _, helements, hcolumn⟩ := exists_of_on_mapM hbody hfed
  obtain ⟨_, v, hentry, hv, rfl⟩ := FieldPlan.started_of_on_bodyElements helements
  cases hentry
  obtain ⟨scalars, hscalars, hfilled⟩ := hall column _ _ hfed hcolumn
  obtain ⟨w, rfl⟩ := List.length_eq_one_iff.mp hfilled.length
  obtain rfl : w = v := Option.some.inj (hfilled.known 0 v rfl)
  refine ⟨by rw [keyField, hfield, Option.getD_some], f, w, hf, hv, ?_⟩
  rw [List.getElem?_map, hscalars]
  rfl

theorem exists_fault_of_assign {indexField? : Option Nat} {position : Nat} {fields : List Field}
    {runs : List SlotRun} {e : Error} (h : assign indexField? position fields runs = .error e) :
    ∃ fault, e = .invalid fault := by
  induction fields generalizing position runs with
  | nil => cases h
  | cons f fields ih =>
      unfold assign at h
      split at h
      case isTrue =>
        rcases bind_eq_error.mp h with hothers | ⟨_, _, h⟩
        · exact ih hothers
        · cases h
      case isFalse =>
        split at h
        case isTrue =>
          cases h
          exact ⟨_, rfl⟩
        case isFalse =>
          rcases bind_eq_error.mp h with hothers | ⟨_, _, h⟩
          · exact ih hothers
          · cases h

theorem exists_fault_of_checkIndexField {schema : Schema} {column : Nat} {e : Error}
    (h : checkIndexField schema column = .error e) : ∃ fault, e = .invalid fault := by
  unfold checkIndexField at h
  split at h
  · cases h
    exact ⟨_, rfl⟩
  · split at h
    · cases h
      exact ⟨_, rfl⟩
    · cases h

theorem exists_fault_of_build {schema : Schema} {descriptors : List Descriptor} {column : Nat}
    {hasIndexTable : Bool} {e : Error}
    (h : build schema descriptors column hasIndexTable = .error e) :
    ∃ fault, e = .invalid fault := by
  unfold build at h
  split at h
  case isTrue =>
    rcases bind_eq_error.mp h with hcheck | ⟨_, _, h⟩
    · exact exists_fault_of_checkIndexField hcheck
    · rcases bind_eq_error.mp h with hassign | ⟨_, _, h⟩
      · exact exists_fault_of_assign hassign
      · cases h
  case isFalse =>
    rcases bind_eq_error.mp h with hassign | ⟨_, _, h⟩
    · exact exists_fault_of_assign hassign
    · cases h

/-- Fields that an index table cannot feed: none at the position, a text, or an array. -/
def Unfeedable (schema : Schema) (column : Nat) : Prop :=
  ∀ f, schema.fields[column]? = some f → f.kind = .text ∨ f.isArray = true

theorem not_unfeedable_of_build {schema : Schema} {descriptors : List Descriptor} {column : Nat}
    {m : Mapping} (h : build schema descriptors column true = .ok m) :
    ¬ Unfeedable schema column := by
  intro hbad
  obtain ⟨_, hcheck, _⟩ := bind_eq_ok.mp h
  unfold checkIndexField at hcheck
  cases hf : schema.fields[column]? with
  | none =>
      rw [hf] at hcheck
      cases hcheck
  | some f =>
      rw [hf] at hcheck
      dsimp only at hcheck
      rw [if_pos (hbad f hf)] at hcheck
      cases hcheck

end Mapping

namespace Metadata

theorem exists_fault_of_unfeedable {h : Header} {layout : Layout} {descriptors : List Descriptor}
    {schema : Schema} {s : SectionLayout} (hs : s ∈ layout.sections)
    (htable : (s.find? .indexTable).isSome = true)
    (hbad : Mapping.Unfeedable schema h.indexColumn.toNat) :
    ∃ fault, sectionMappings h layout descriptors schema = .error (.invalid fault) := by
  unfold sectionMappings
  cases hmappings : layout.sections.mapM (sectionMapping h descriptors schema) with
  | ok mappings =>
      obtain ⟨i, hi⟩ := List.mem_iff_getElem?.mp hs
      obtain ⟨m, _, hm⟩ := exists_of_mapM hmappings hi
      unfold sectionMapping at hm
      rw [htable] at hm
      exact absurd hbad (Mapping.not_unfeedable_of_build hm)
  | error e =>
      obtain ⟨other, _, hother⟩ := exists_of_mapM_error hmappings
      obtain ⟨fault, rfl⟩ := Mapping.exists_fault_of_build hother
      exact ⟨fault, rfl⟩

theorem outcome_read_of_unfeedable {source : Source} {signature : Signature} {h : Header}
    {layout : Layout} {descriptors : List Descriptor} {schema : Schema} {s : SectionLayout}
    (hstart : (source.parse parseStart).outcome = .ok (signature, some h))
    (hplan : Layout.plan h = .ok layout)
    (hdescriptors : (Descriptor.readAll source h layout schema).outcome = .ok descriptors)
    (hs : s ∈ layout.sections) (htable : (s.find? .indexTable).isSome = true)
    (hbad : Mapping.Unfeedable schema h.indexColumn.toNat) :
    ∃ fault, (read source schema).outcome = .error (.invalid fault) := by
  obtain ⟨fault, hmappings⟩ : ∃ fault,
      sectionMappings h layout descriptors schema = .error (.invalid fault) :=
    exists_fault_of_unfeedable hs htable hbad
  have hpopulated : (readPopulated source h schema).outcome = .error (.invalid fault) := by
    rw [outcome_readPopulated]
    refine bind_eq_error.mpr (Or.inr ⟨layout, hplan, ?_⟩)
    refine bind_eq_error.mpr (Or.inr ⟨descriptors, hdescriptors, ?_⟩)
    exact bind_eq_error.mpr (Or.inl hmappings)
  refine ⟨fault, ?_⟩
  rw [outcome_read]
  exact bind_eq_error.mpr (Or.inr ⟨_, hstart, hpopulated⟩)

end Metadata

namespace Reader

/-- The record of a row whose key is the entry of the index table, as far as an integer of the kind
of the field that the table feeds can hold it. -/
structure IndexKeyed (schema : Schema) (column : Nat) (entry : UInt32) (base : Record) : Prop where
  keyField : base.keyField = column
  integer : ∀ f kind, schema.fields[column]? = some f → f.kind = .int kind →
    base.at? column =
        some (.scalar (.int kind ((entry.toBitVec.setWidth 64).setWidth kind.bits))) ∧
      base.key? = kind.keyOf entry ∧ (base.key? = some entry ↔ entry.toNat < kind.limit)

theorem indexKeyed_of_decoded {source : Source} {m : Metadata} {shared : SharedTables} {s : Section}
    {row : Row} {base : Record} {schema : Schema} {column : Nat} {mapping : Mapping}
    {texts : Bytes} {table : IndexTable} (htable : s.keys = some table)
    (hmapping : m.mappings[s.index]? = some mapping)
    (hbuild : Mapping.build schema m.descriptors column true = .ok mapping)
    (hs : s.strings.Keeps texts)
    (hdecodes : (s.decoded source m shared row).1 = .ok base) :
    ∃ entry f, table.keys[row.index]? = some entry ∧ schema.fields[column]? = some f ∧
      f.kind ≠ .text ∧ IndexKeyed schema column entry base := by
  obtain ⟨mapping', data, values, t, hmapping', _, hsome, hvalues, rfl⟩ :=
    Section.exists_of_decoded hdecodes
  rw [hmapping] at hmapping'
  cases hmapping'
  rw [htable, Option.isSome_some, Option.isSome_iff_exists] at hsome
  obtain ⟨entry, hentry⟩ := hsome
  rw [hentry] at hvalues
  rw [Section.entry?, htable] at hentry
  obtain ⟨hfield, f, v, hf, hv, hvalue⟩ := Mapping.value_of_indexed hbuild hs hvalues
  refine ⟨entry, f, hentry, hf, ?_, hfield, ?_⟩
  · intro htext
    rw [htext] at hv
    cases hv
  · intro g kind hg hkind
    rw [hf] at hg
    cases hg
    rw [hkind] at hv
    cases hv
    have hkey : Record.key? ⟨m.schema, values, mapping.keyField⟩ = kind.keyOf entry := by
      rw [← Scalar.toWord?_of_entry, Record.key?, Record.at?, hfield, hvalue]
      rfl
    refine ⟨hvalue, hkey, ?_⟩
    rw [hkey]
    exact kind.keyOf_eq_some_iff entry

/-- In a section that has an index table, the record of a row is given out with the entry of the row
as its key, if the integer kind of the field that the table feeds can hold it, and else with as much
of the entry as fits. A file with such a section does not open with a schema in which no field, a
text or an array stands in the place of that field. -/
theorem indexed_records (stream : Stream) (schema : Schema) (options : Options) :
    (∀ {reader records count count' h layout s row base} {i : Nat} {table : IndexTable},
      ((ofStream stream schema options).on count).1 = .ok reader →
      (reader.records.on count').1 = .ok records →
      reader.HasRecord records h layout s row base →
      s.keys = some table → s.rows.rows[i]? = some row →
      ∃ entry f, table.keys[i]? = some entry ∧
        schema.fields[h.indexColumn.toNat]? = some f ∧ f.kind ≠ .text ∧ f.isArray = false ∧
        IndexKeyed schema h.indexColumn.toNat entry base ∧
        ∃ before after, ∀ start,
          (records.toList.run start).1 = untilError (before ++ .ok base :: after)) ∧
    ∀ {source signature h layout descriptors},
      (Source.ofStream stream options.copyToMemory).outcome = .ok source →
      (source.parse Metadata.parseStart).outcome = .ok (signature, some h) →
      Layout.plan h = .ok layout →
      (Descriptor.readAll source h layout schema).outcome = .ok descriptors →
      (∃ s ∈ layout.sections, (s.find? .indexTable).isSome = true) →
      Mapping.Unfeedable schema h.indexColumn.toNat →
      ∃ fault, (ofStream stream schema options).outcome = .error (.invalid fault) := by
  constructor
  · intro reader records count count' h layout s row base i table hopen hrecords hbase htable hrow
    obtain ⟨hheader, hlayout, hopens, _, hdecodes⟩ := id hbase
    obtain ⟨_, hmapping⟩ := ensures_isMapped stream schema options count reader hopen
    obtain ⟨hindex, hkeys⟩ :=
      Section.ensures_read_keys reader.source h layout reader.options.internStrings 0 s hopens
    have hsection := Section.ensures_read reader.source h layout reader.options.internStrings 0 s
      hopens
    obtain ⟨mapping, hm, hbuild⟩ := hmapping h hheader layout hlayout
    unfold Metadata.sectionMapping at hbuild
    rw [← hkeys, htable, Option.isSome_some] at hbuild
    rw [← hindex] at hm
    obtain ⟨entry, f, hentry, hf, htext, hkeyed⟩ :=
      indexKeyed_of_decoded htable hm hbuild hsection.strings hdecodes
    rw [hsection.index_row hrow] at hentry
    refine ⟨entry, f, hentry, hf, htext, ?_, hkeyed, ?_⟩
    · -- An array would have been refused.
      by_contra harray
      refine Mapping.not_unfeedable_of_build hbuild fun g hg => ?_
      rw [hf] at hg
      cases hg
      exact Or.inr (Bool.eq_true_of_not_eq_false harray)
    · obtain ⟨before, after, hitems⟩ := hbase.exists_run_toList hrecords
      exact ⟨before, (s.duplicateKeys base).map base.withKey ++ after, hitems⟩
  · rintro source signature h layout descriptors hstream hstart hplan hdescriptors
      ⟨s, hs, htable⟩ hbad
    obtain ⟨fault, hread⟩ :=
      Metadata.outcome_read_of_unfeedable hstart hplan hdescriptors hs htable hbad
    refine ⟨fault, ?_⟩
    rw [outcome_ofStream, hstream]
    exact congrArg (Except.map _) hread

/-- A file of one record, whose key is in an index table. -/
def indexedRow (entry : UInt32) : Bytes :=
  wordFile .wdb5 [1, 1, 4, 0, 0, 0, 0, 0, 0, 0, 4, 0, 70, entry]

/-- What a file announces before the fields of a schema are fed. -/
structure Announcement where
  source : Source
  signature : Signature
  header : Header
  layout : Layout
  descriptors : List Descriptor

def announced? (file : Bytes) (schema : Schema) : Option Announcement := do
  let source ← (Source.ofStream ⟨file, 0, none⟩ false).outcome.toOption
  let (signature, header) ← (source.parse Metadata.parseStart).outcome.toOption
  let h ← header
  let layout ← (Layout.plan h).toOption
  let descriptors ← (Descriptor.readAll source h layout schema).outcome.toOption
  return ⟨source, signature, h, layout, descriptors⟩

theorem indexed_records_indexedRow :
    (∃ f ∈ firstRecord? (indexedRow 300) ⟨[.scalar "id" .u16, .scalar "value" .u32]⟩,
      ∃ entry g, (f.opened.keys.bind fun table => table.keys[0]?) = some entry ∧
        [Field.scalar "id" .u16, .scalar "value" .u32][f.header.indexColumn.toNat]? = some g ∧
        IndexKeyed ⟨[.scalar "id" .u16, .scalar "value" .u32]⟩ f.header.indexColumn.toNat entry
          f.base ∧ f.base.key? = some 300) ∧
      ∃ fault, (ofStream ⟨indexedRow 300, 0, none⟩ ⟨[.scalar "id" .text, .scalar "value" .u32]⟩
        .default).outcome = .error (.invalid fault) := by
  constructor
  · have hrun : ∃ f ∈ firstRecord? (indexedRow 300) ⟨[.scalar "id" .u16, .scalar "value" .u32]⟩,
        f.opened.keys = some ⟨[300]⟩ ∧ f.opened.rows.rows[0]? = some f.row ∧
          f.base.key? = some 300 := by
      decide +kernel
    obtain ⟨f, hf, htable, hrow, hkey⟩ := hrun
    obtain ⟨hopen, hrecords, hbase⟩ := FirstRecord.hasRecord hf
    obtain ⟨entry, g, hentry, hg, _, _, hkeyed, _⟩ :=
      (indexed_records _ _ _).1 hopen hrecords hbase htable hrow
    refine ⟨f, hf, entry, g, ?_, hg, hkeyed, hkey⟩
    rw [htable]
    exact hentry
  · have hrun : ∃ a ∈ announced? (indexedRow 300) ⟨[.scalar "id" .text, .scalar "value" .u32]⟩,
        a.header.indexColumn.toNat = 0 ∧
          ∃ s ∈ a.layout.sections, (s.find? .indexTable).isSome = true := by
      decide +kernel
    obtain ⟨a, ha, hcolumn, hsection⟩ := hrun
    unfold announced? at ha
    obtain ⟨source, hsource, ha⟩ := Option.bind_eq_some_iff.mp ha
    obtain ⟨⟨signature, header⟩, hstart, ha⟩ := Option.bind_eq_some_iff.mp ha
    obtain ⟨h, hheader, ha⟩ := Option.bind_eq_some_iff.mp ha
    obtain ⟨layout, hplan, ha⟩ := Option.bind_eq_some_iff.mp ha
    obtain ⟨descriptors, hdescriptors, ha⟩ := Option.bind_eq_some_iff.mp ha
    cases ha
    obtain rfl : header = some h := hheader
    refine (indexed_records _ _ _).2 (ok_of_toOption hsource) (ok_of_toOption hstart)
      (ok_of_toOption hplan) (ok_of_toOption hdescriptors) hsection ?_
    intro f hf
    change _[h.indexColumn.toNat]? = some f at hf
    rw [show h.indexColumn.toNat = 0 from hcolumn] at hf
    cases hf
    exact Or.inl rfl

theorem keys_not_of_entries :
    (∃ f ∈ firstRecord? (indexedRow 300) ⟨[.scalar "id" .u8, .scalar "value" .u32]⟩,
      f.id? = some 300 ∧ f.base.key? = some 44) ∧
    (∃ f ∈ firstRecord? (indexedRow 0x80000005) ⟨[.scalar "id" .i32, .scalar "value" .u32]⟩,
      f.id? = some 0x80000005 ∧ f.base.key? = none) ∧
    ∃ f ∈ firstRecord? (indexedRow 300) ⟨[.scalar "id" .f32, .scalar "value" .u32]⟩,
      f.id? = some 300 ∧ f.base.key? = none := by
  refine ⟨?_, ?_, ?_⟩ <;> decide +kernel

end Reader

end ClientTable
