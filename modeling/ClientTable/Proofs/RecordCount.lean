import ClientTable.Proofs.Iteration

namespace ClientTable

open Attempt

theorem total_countP_comm {α β : Type} (p : α → β → Bool) (xs : List α) (ys : List β) :
    total (xs.map fun x => ys.countP (p x)) =
      total (ys.map fun y => xs.countP fun x => p x y) := by
  induction xs with
  | nil =>
      induction ys with
      | nil => rfl
      | cons y ys ih => simpa using ih
  | cons x xs ih =>
      rw [List.map_cons, total_cons, ih]
      clear ih
      induction ys with
      | nil => rfl
      | cons y ys ih =>
          simp only [List.map_cons, total_cons, List.countP_cons] at ih ⊢
          omega

theorem total_map_one {α : Type} {f : α → Nat} {items : List α} (h : ∀ a ∈ items, f a = 1) :
    total (items.map f) = items.length := by
  induction items with
  | nil => rfl
  | cons a items ih =>
      have hfirst := h a (List.mem_cons_self ..)
      have hrest := ih fun b hb => h b (List.mem_cons_of_mem _ hb)
      rw [List.map_cons, total_cons, hfirst, hrest, List.length_cons, Nat.add_comm]

/-- The number of records that a copy is made from. -/
def Copy.sources (c : Copy) (bases : List Record) : Nat :=
  bases.countP fun base => base.key? = some c.sourceKey

namespace Section

theorem length_duplicateKeys (s : Section) (base : Record) :
    (s.duplicateKeys base).length =
      s.copies.copies.countP fun c => base.key? = some c.sourceKey := by
  unfold duplicateKeys
  cases base.key? with
  | none => simp
  | some key =>
      simp only [CopyTable.duplicatesOf, List.length_map, List.countP_eq_length_filter,
        Option.some.injEq, eq_comm]

/-- How often the copies of a section are given out behind the given records. -/
def copiesOf (s : Section) (bases : List Record) : Nat :=
  total (s.copies.copies.map fun c => c.sources bases)

theorem copiesOf_eq (s : Section) (bases : List Record) :
    s.copiesOf bases = total (bases.map fun base => (s.duplicateKeys base).length) := by
  simp only [s.length_duplicateKeys]
  exact total_countP_comm (fun (c : Copy) (base : Record) => base.key? = some c.sourceKey)
    s.copies.copies bases

theorem length_flatMap_withCopies (s : Section) (bases : List Record) :
    (bases.flatMap (Records.withCopies s)).length = bases.length + s.copiesOf bases := by
  rw [copiesOf_eq]
  induction bases with
  | nil => rfl
  | cons base bases ih =>
      simp only [List.flatMap_cons, List.length_append, Records.withCopies, List.length_cons,
        List.length_map, List.map_cons, total_cons] at ih ⊢
      omega

theorem copiesOf_eq_size {s : Section} {bases : List Record}
    (h : ∀ c ∈ s.copies.copies, c.sources bases = 1) : s.copiesOf bases = s.copies.size :=
  total_map_one h

end Section

namespace Records

variable {r : Records} {h : Header} {sections : List SectionLayout}
  {opened : List (Section × List Record)}

theorem Decoded.size_copies {layout : SectionLayout} {s : Section} {bases : List Record}
    (decoded : r.Decoded h layout s bases) :
    s.copies.size =
      match layout.find? .copyTable with
      | some segment => segment.length / 8
      | none => 0 :=
  (Section.ensures_read r.source h layout r.internStrings 0 s decoded.opens).copies

theorem total_size_of_decoded
    (hdecoded : List.Forall₂ (fun layout o => r.Decoded h layout o.1 o.2) sections opened) :
    total (sections.map fun s =>
      match s.find? .copyTable with
      | some segment => segment.length / 8
      | none => 0) = total (opened.map fun o => o.1.copies.size) := by
  induction hdecoded with
  | nil => rfl
  | cons hfirst _ ih =>
      rw [List.map_cons, List.map_cons, total_cons, total_cons, hfirst.size_copies, ih]

theorem length_flatMap_opened (opened : List (Section × List Record)) :
    (opened.flatMap fun o => o.2.flatMap (withCopies o.1)).length =
      total (opened.map fun o => o.2.length) + total (opened.map fun o => o.1.copiesOf o.2) := by
  induction opened with
  | nil => rfl
  | cons o opened ih =>
      simp only [List.flatMap_cons, List.length_append, Section.length_flatMap_withCopies,
        List.map_cons, total_cons, ih]
      omega

end Records

theorem Metadata.ensures_sections (source : Source) (schema : Schema) :
    Ensures (Metadata.read source schema) fun m => m.header = none → m.layout.sections = [] := by
  refine (ensures_isRead source schema).mono fun m hm => ?_
  cases hm with
  | empty signature => exact fun _ => rfl
  | populated _ _ _ _ => exact nofun

namespace Reader

theorem ensures_sections (stream : Stream) (schema : Schema) (options : Options) :
    Ensures (ofStream stream schema options) fun reader =>
      reader.metadata.header = none → reader.metadata.layout.sections = [] :=
  ensures_bind fun source =>
    (Metadata.ensures_sections source schema).bind fun _ hm => ensures_pure hm

def Opened (reader : Reader) (records : Records) (opened : List (Section × List Record)) : Prop :=
  List.Forall₂ (fun layout o => ∃ h, reader.metadata.header = some h ∧
    records.Decoded h layout o.1 o.2) reader.metadata.layout.sections opened

/-- Without an error the items are the records of all sections, each with its copies. -/
theorem exists_opened {reader : Reader} {records : Records}
    (hrecords : records.metadata = reader.metadata)
    (hsections : reader.metadata.header = none → reader.metadata.layout.sections = [])
    (herror : ∀ e, .error e ∉ records.reference) :
    ∃ opened, reader.Opened records opened ∧
      total (opened.map fun o => o.2.length) = reader.metadata.layout.recordCount ∧
      total (opened.map fun o => o.1.copies.size) = reader.metadata.copyCount ∧
      records.reference = opened.flatMap fun o => o.2.flatMap (Records.withCopies o.1) := by
  have hitems : records.reference = records.itemsOf reader.metadata.layout.sections := by
    rw [← hrecords]
    exact untilError_eq_self herror
  rw [hitems] at herror ⊢
  unfold Records.itemsOf at herror ⊢
  rw [hrecords] at herror ⊢
  cases hheader : reader.metadata.header with
  | none =>
      unfold Opened Metadata.copyCount Layout.recordCount
      rw [hsections hheader]
      exact ⟨[], List.Forall₂.nil, rfl, rfl, rfl⟩
  | some h =>
      rw [hheader] at herror
      obtain ⟨opened, hdecoded, hlist⟩ := Records.exists_decoded herror
      refine ⟨opened, ?_, Records.total_length_of_decoded hdecoded,
        (Records.total_size_of_decoded hdecoded).symm, hlist⟩
      exact hdecoded.imp fun layout o hopens => ⟨h, hheader, hopens⟩

/-- Records that end without an error are as many as the header declares, and one for each pair of a
copy and a record of its section with the source of the copy as key. If every copy has one such
record, these are the records that the header and the copy tables declare together. -/
theorem length_items {stream : Stream} {schema : Schema} {options : Options} {reader : Reader}
    {records : Records} {count count' start : Nat}
    (hopen : ((ofStream stream schema options).on count).1 = .ok reader)
    (hrecords : (reader.records.on count').1 = .ok records)
    (herror : ∀ e, .error e ∉ (records.toList.run start).1) :
    ∃ opened, reader.Opened records opened ∧
      reader.recordCount = total (opened.map fun o => o.2.length) ∧
      reader.totalRecordCount =
        reader.recordCount + total (opened.map fun o => o.1.copies.size) ∧
      (records.toList.run start).1.length =
        reader.recordCount + total (opened.map fun o => o.1.copiesOf o.2) ∧
      ((∀ o ∈ opened, ∀ c ∈ o.1.copies.copies, c.sources o.2 = 1) →
        (records.toList.run start).1.length = reader.totalRecordCount) := by
  obtain ⟨fresh, _, hmetadata, _⟩ :=
    Records.ensures_start reader.source reader.metadata reader.options.internStrings
      count' records hrecords
  have hcount := ensures_ofStream stream schema options count reader hopen
  have hsections := ensures_sections stream schema options count reader hopen
  rw [fresh.run_toList] at herror ⊢
  obtain ⟨opened, hopened, hlengths, hsizes, hlist⟩ := exists_opened hmetadata hsections herror
  have htotal : reader.totalRecordCount =
      reader.recordCount + total (opened.map fun o => o.1.copies.size) := by
    rw [hsizes]
    rfl
  have hlength : records.reference.length =
      reader.recordCount + total (opened.map fun o => o.1.copiesOf o.2) := by
    rw [hlist, Records.length_flatMap_opened, hlengths, hcount]
  refine ⟨opened, hopened, (hlengths.trans hcount).symm, htotal, hlength, fun hone => ?_⟩
  have hcopies : (opened.map fun o => o.1.copiesOf o.2) = opened.map fun o => o.1.copies.size :=
    List.map_congr_left fun o ho => Section.copiesOf_eq_size (hone o ho)
  rw [hlength, htotal, hcopies]

def soundRecords? (file : Bytes) (schema : Schema) : Option (Reader × Records) := do
  let reader ← ((ofStream ⟨file, 0, none⟩ schema .default).on 0).1.toOption
  let records ← (reader.records.on 0).1.toOption
  if (records.toList.run 0).1.all fun item => item.toOption.isSome then some (reader, records)
  else none

theorem of_soundRecords? {file : Bytes} {schema : Schema} {reader : Reader} {records : Records}
    (h : soundRecords? file schema = some (reader, records)) :
    ((ofStream ⟨file, 0, none⟩ schema .default).on 0).1 = .ok reader ∧
      (reader.records.on 0).1 = .ok records ∧ ∀ e, .error e ∉ (records.toList.run 0).1 := by
  unfold soundRecords? at h
  obtain ⟨_, hreader, h⟩ := Option.bind_eq_some_iff.mp h
  obtain ⟨_, hrecords, h⟩ := Option.bind_eq_some_iff.mp h
  split at h
  case isTrue hall =>
    cases h
    refine ⟨ok_of_toOption hreader, ok_of_toOption hrecords, fun e he => ?_⟩
    cases List.all_eq_true.mp hall _ he
  case isFalse => cases h

theorem length_items_copiedRows :
    ∃ reader records,
      ((ofStream ⟨copiedRows, 0, none⟩ ⟨[.scalar "id" .u32, .scalar "value" .u32]⟩
        .default).on 0).1 = .ok reader ∧
      (reader.records.on 0).1 = .ok records ∧
      (∀ e, .error e ∉ (records.toList.run 0).1) ∧
      reader.totalRecordCount = 4 ∧
      ∃ opened, reader.Opened records opened ∧
        (records.toList.run 0).1.length = 2 + total (opened.map fun o => o.1.copiesOf o.2) := by
  have hrun : ∃ opened ∈ soundRecords? copiedRows ⟨[.scalar "id" .u32, .scalar "value" .u32]⟩,
      opened.1.recordCount = 2 ∧ opened.1.totalRecordCount = 4 := by
    decide +kernel
  obtain ⟨⟨reader, records⟩, hsound, hcount, htotal⟩ := hrun
  obtain ⟨hopen, hrecords, herror⟩ := of_soundRecords? hsound
  obtain ⟨opened, hopened, _, _, hlength, _⟩ := length_items hopen hrecords herror
  dsimp only at hcount
  rw [hcount] at hlength
  exact ⟨reader, records, hopen, hrecords, herror, htotal, opened, hopened, hlength⟩

/-- Records that end without an error, but are not as many as the header and the copy tables
declare. -/
def Miscounted (file : Bytes) (schema : Schema) (items declared : Nat) : Prop :=
  ∃ reader records, ((ofStream ⟨file, 0, none⟩ schema .default).on 0).1 = .ok reader ∧
    (reader.records.on 0).1 = .ok records ∧ (∀ e, .error e ∉ (records.toList.run 0).1) ∧
    (records.toList.run 0).1.length = items ∧ reader.totalRecordCount = declared ∧
    items ≠ declared

theorem miscounted_of_length {file : Bytes} {schema : Schema} {items declared : Nat}
    (h : ∃ opened ∈ soundRecords? file schema, (opened.2.toList.run 0).1.length = items ∧
      opened.1.totalRecordCount = declared) (hne : items ≠ declared) :
    Miscounted file schema items declared := by
  obtain ⟨⟨reader, records⟩, hsound, hlength, htotal⟩ := h
  obtain ⟨hopen, hrecords, herror⟩ := of_soundRecords? hsound
  exact ⟨reader, records, hopen, hrecords, herror, hlength, htotal, hne⟩

def orphanCopy : Bytes :=
  Signature.wdb5.magic ++
    ([1, 1, 4, 0, 0, 0, 0, 0, 0, 8, 0, 0, 5, 105, 7] : List UInt32).flatMap wordBytes

def repeatedKey : Bytes :=
  Signature.wdb5.magic ++
    ([2, 1, 4, 0, 0, 0, 0, 0, 0, 8, 0, 0, 5, 5, 105, 5] : List UInt32).flatMap wordBytes

theorem miscounted_orphanCopy_repeatedKey :
    Miscounted orphanCopy ⟨[.scalar "id" .u32]⟩ 1 2 ∧
      Miscounted repeatedKey ⟨[.scalar "id" .u32]⟩ 4 3 :=
  ⟨miscounted_of_length (by decide +kernel) (by decide),
    miscounted_of_length (by decide +kernel) (by decide)⟩

end Reader

end ClientTable
