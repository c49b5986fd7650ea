import ClientTable.Machine.Opening
import ClientTable.Proofs.DescriptorBounds

namespace ClientTable

open Attempt

namespace Machine

open Guarded

theorem total_le_of_forall {α : Type} {f : α → Nat} {items : List α} {limit : Nat}
    (h : ∀ a ∈ items, f a ≤ limit) : total (items.map f) ≤ items.length * limit := by
  induction items with
  | nil => exact Nat.zero_le _
  | cons a items ih =>
      obtain ⟨hfirst, hothers⟩ := List.forall_mem_cons.mp h
      rw [List.map_cons, total_cons, List.length_cons, Nat.succ_mul, Nat.add_comm]
      exact Nat.add_le_add (ih hothers) hfirst

theorem idCount_eq (h : Header) : idCount h = liftM (Extent.idCount h) := by
  unfold idCount Extent.idCount
  split
  · rfl
  case isFalse hordered =>
      have hle : h.minIndex.toNat ≤ h.maxIndex.toNat := Nat.not_lt.mp hordered
      have hmax := h.maxIndex.toNat_lt
      rw [Checked.trap_bind (Checked.sub_of_le hle), Checked.add_of_lt]
      · rfl
      · rw [positionLimit]
        omega

theorem idCount_le {h : Header} {count : Nat} (hcount : Extent.idCount h = .ok count) :
    count ≤ wordLimit := by
  have hmax : h.maxIndex.toNat < wordLimit := h.maxIndex.toNat_lt
  unfold Extent.idCount at hcount
  split at hcount
  · cases hcount
  · cases hcount
    omega

theorem extentLength_eq (h : Header) (start : Nat) {extent : Extent} (hextent : extent.IsBounded) :
    extentLength h start extent = liftM (extent.length h start) := by
  cases extent with
  | bytes count =>
      rw [extentLength, Checked.fit_of_lt hextent]
      rfl
  | upTo stop =>
      rw [extentLength, Extent.length]
      split
      · rfl
      · rw [Checked.sub_of_le (by omega)]
        rfl
  | perId size =>
      refine Checked.bind_eq_lift (idCount_eq h) fun count hcount => ?_
      have hmul : count * size ≤ wordLimit * 8 := Nat.mul_le_mul (idCount_le hcount) hextent
      rw [Checked.mul_of_lt (Nat.lt_of_le_of_lt hmul (by decide))]
      rfl

theorem place_eq (h : Header) (start : Nat) {requests : List Layout.Request}
    (hrequests : ∀ request ∈ requests, request.2.IsBounded) :
    place h start requests = liftM (Layout.place h start requests) := by
  induction requests generalizing start with
  | nil => rfl
  | cons request requests ih =>
      obtain ⟨kind, extent⟩ := request
      obtain ⟨hextent, hothers⟩ := List.forall_mem_cons.mp hrequests
      refine Checked.bind_eq_lift (extentLength_eq h start hextent) fun length _ => ?_
      dsimp only
      split
      · rfl
      · exact Checked.bind_eq_lift (ih (start + length) hothers) fun _ _ => rfl

theorem planSections_eq (h : Header) (index : Nat) (headers : List SectionHeader) :
    planSections h index headers = liftM (Layout.planSections h index headers) := by
  induction headers generalizing index with
  | nil => rfl
  | cons header headers ih =>
      have hplace := place_eq h header.fileOffset.toNat
        (Layout.asksFor_sectionRequests h header).extents
      have hfirst : planSection h index header = liftM (Layout.planSection h index header) :=
        Checked.bind_eq_lift hplace fun _ _ => rfl
      refine Checked.bind_eq_lift hfirst fun first _ => ?_
      exact Checked.bind_eq_lift (ih (index + 1)) fun _ _ => rfl

theorem plan_eq (h : Header) : plan h = liftM (Layout.plan h) := by
  unfold plan Layout.plan
  cases h.signature with
  | wdbc | wdb2 =>
      exact Checked.bind_eq_lift (place_eq h _ (Layout.asksFor_simpleRequests h).extents)
        fun _ _ => rfl
  | wdb3 | wdb4 => rfl
  | wdb5 | wdb6 =>
      exact Checked.bind_eq_lift (place_eq h _ (Layout.asksFor_flaggedRequests h).extents)
        fun _ _ => rfl
  | wdc1 =>
      exact Checked.bind_eq_lift (place_eq h _ (Layout.asksFor_storedRequests h).extents)
        fun _ _ => rfl
  | wdc2 =>
      have hshared := place_eq h h.headerEnd fun request hrequest =>
        (Layout.isBounded_sharedRequests h request hrequest).1
      refine Checked.bind_eq_lift hshared fun shared _ => ?_
      exact Checked.bind_eq_lift (planSections_eq h 0 h.sections) fun _ _ => rfl

theorem bitOffset_eq (info : FieldInfo) : bitOffset info = pure info.bitOffset := by
  unfold bitOffset
  rw [Checked.mul_of_lt (Nat.lt_trans info.bitOffset_lt (by decide))]
  rfl

theorem bitSize_pos {info : FieldInfo} {size : Nat} (hsize : info.bitSize = .ok size) :
    size ≠ 0 := by
  unfold FieldInfo.bitSize at hsize
  split at hsize
  · cases hsize
    omega
  · cases hsize

theorem recordWidth_lt (h : Header) : h.recordBits < positionLimit := by
  have hsize := h.recordSize.toNat_lt
  rw [Header.recordBits, positionLimit]
  omega

theorem elements_eq (h : Header) (index : Nat) {info : FieldInfo} {size : Nat}
    (hsize : info.bitSize = .ok size) (rest : List FieldInfo) :
    elements h h.recordBits (index + 1) info size rest =
      liftM (info.elements h index size rest) := by
  have hpositive := bitSize_pos hsize
  cases rest with
  | nil =>
      rw [elements, FieldInfo.elements]
      split
      · rfl
      · rw [bitOffset_eq, pure_bind, Checked.trap_bind (Checked.div_of_ne hpositive)]
        rfl
  | cons next rest =>
      rw [elements, FieldInfo.elements]
      split
      case isTrue => rfl
      case isFalse hordered =>
          have hle : info.position.toNat ≤ next.position.toNat := Nat.not_lt.mp hordered
          have hnext := next.position.toNat_lt
          rw [Checked.trap_bind (Checked.sub_of_le hle),
            Checked.trap_bind (Checked.mul_of_lt (by rw [wordLimit]; omega)),
            Checked.div_of_ne hpositive, FieldInfo.bitOffset, FieldInfo.bitOffset, Nat.sub_mul]
          rfl

theorem fieldDescriptors_eq (h : Header) {index : Nat} {infos : List FieldInfo}
    (hcount : index + infos.length < positionLimit) :
    fieldDescriptors h h.recordBits index infos = liftM (FieldInfo.descriptors h index infos) := by
  induction infos generalizing index with
  | nil => rfl
  | cons info rest ih =>
      rw [List.length_cons] at hcount
      refine Checked.bind_eq_lift rfl fun size hsize => ?_
      rw [bitOffset_eq, pure_bind, Checked.trap_bind (Checked.add_of_lt (by omega))]
      refine Checked.bind_eq_lift (elements_eq h index hsize rest) fun count _ => ?_
      exact Checked.bind_eq_lift (ih (by omega)) fun _ _ => rfl

theorem fieldColumns_eq (h : Header) {infos : List FieldInfo} (hcount : infos.length < wordLimit) :
    fieldColumns h infos = liftM (FieldInfo.descriptors h 0 infos) := by
  rw [fieldColumns, Checked.trap_bind (Checked.mul_of_lt (recordWidth_lt h))]
  refine fieldDescriptors_eq h ?_
  rw [Nat.zero_add]
  exact Nat.lt_trans hcount (by decide)

theorem plainBits_pos {info : StorageInfo} {index bits : Nat} {field? : Option FieldInfo}
    (h : info.plainBits index field? = .ok bits) : bits ≠ 0 := by
  have hkept {found : Nat} (h : (if found = 0 then throw (.invalid (.zeroWidth index))
      else return found : Except Error Nat) = .ok bits) : bits ≠ 0 := by
    split at h
    case isTrue => cases h
    case isFalse hfound =>
        cases h
        exact hfound
  cases field? with
  | none => exact hkept h
  | some field =>
      obtain ⟨_, _, h⟩ := bind_eq_ok.mp h
      exact hkept h

theorem storedDescriptor_eq (index : Nat) (field? : Option FieldInfo) (offsets : ChunkOffsets)
    (info : StorageInfo) :
    storedDescriptor index field? offsets info =
      liftM (info.descriptor index field? offsets) := by
  unfold storedDescriptor StorageInfo.descriptor
  refine Checked.bind_eq_lift rfl fun compression hcode => ?_
  cases compression with
  | plain =>
      refine Checked.bind_eq_lift rfl fun bits hbits => ?_
      rw [Checked.trap_bind (Checked.div_of_ne (plainBits_pos hbits))]
      rfl
  | _ =>
      rw [hcode]
      rfl

theorem storedDescriptors_eq (fields : List FieldInfo) (index : Nat) (offsets : ChunkOffsets)
    (infos : List StorageInfo) :
    storedDescriptors fields index offsets infos =
      liftM (StorageInfo.descriptors fields index offsets infos) := by
  induction infos generalizing index offsets with
  | nil => rfl
  | cons info rest ih =>
      refine Checked.bind_eq_lift (storedDescriptor_eq index fields[index]? offsets info)
        fun first _ => ?_
      exact Checked.bind_eq_lift (ih (index + 1) first.2) fun _ _ => rfl

section

variable {d : Descriptor}

theorem recordBits_eq (hd : d.IsBounded) : recordBits d = pure d.recordBits := by
  have hmul : d.bitSize * d.cardinality < positionLimit := by
    have hmul : d.bitSize * d.cardinality ≤ (wordLimit - 1) * (wordLimit - 1) :=
      Nat.mul_le_mul (Nat.le_pred_of_lt hd.bitSize) (Nat.le_pred_of_lt hd.cardinality)
    exact Nat.lt_of_le_of_lt hmul (by decide)
  unfold recordBits Descriptor.recordBits
  cases d.storage with
  | plain | immediate | pallet =>
      dsimp only
      rw [Checked.mul_of_lt hmul]
      rfl
  | palletArray | common | relationship => rfl

theorem bitStop_eq (hd : d.IsBounded) : bitStop d = pure d.bitStop := by
  have hbits := Descriptor.recordBits_le hd
  have hoffset := hd.bitOffset
  unfold bitStop
  rw [recordBits_eq hd, pure_bind, Checked.add_of_lt]
  · rfl
  · rw [wordLimit] at *
    rw [positionLimit]
    omega

end

theorem mapM_eq_pure {α β : Type} {f : α → Checked β} {g : α → β} {items : List α}
    (h : ∀ a ∈ items, f a = pure (g a)) : items.mapM f = pure (items.map g) := by
  rw [Checked.mapM_eq_lift (g := fun a => pure (g a)) h, List.mapM_pure]
  rfl

theorem checkWidth_eq (h : Header) {descriptors : List Descriptor}
    (hbounded : Descriptor.AreBounded (positionLimit - 1) descriptors) :
    checkWidth h descriptors = liftM (Descriptor.checkWidth h descriptors) := by
  have hsum : total (descriptors.map Descriptor.recordBits) < positionLimit :=
    Nat.lt_of_le_of_lt hbounded.sum (by decide)
  unfold checkWidth Descriptor.checkWidth
  split
  case isTrue => rfl
  case isFalse =>
      rw [Checked.trap_bind (Checked.mul_of_lt (recordWidth_lt h)),
        mapM_eq_pure fun d hd => recordBits_eq (hbounded.each d hd), pure_bind,
        mapM_eq_pure fun d hd => bitStop_eq (hbounded.each d (List.mem_filter.mp hd).1), pure_bind,
        Checked.trap_bind (Checked.sum_of_lt hsum)]
      dsimp only
      change (if h.recordBits < _ ∨ h.recordBits < _ then _ else _) = _
      split
      case isTrue => rfl
      case isFalse hfits =>
          have hle : total (descriptors.map Descriptor.recordBits) ≤ h.recordSize.toNat * 8 :=
            Nat.not_lt.mp (not_or.mp hfits).2
          rw [Checked.trap_bind (Checked.sub_of_le hle)]
          rfl

theorem mirrors_parseSectioned (h : Header) : Mirrors Eq (parseSectioned h) h.parseSectioned := by
  iterate 13 refine (mirrors_parse _).bind fun _ => ?_
  refine (mirrors_parse _).bind fun sectionCount => ?_
  refine (mirrors_parse _).bind_of_ensures (Parse.ensures_many _ sectionCount.toNat)
    fun sections hlength => ?_
  have hle : total (sections.map fun s => s.recordCount.toNat) ≤
      sections.length * (wordLimit - 1) :=
    total_le_of_forall fun s _ => Nat.le_pred_of_lt s.recordCount.toNat_lt
  have hcount := sectionCount.toNat_lt
  rw [trap_bind (Checked.sum_of_lt (by rw [wordLimit] at hle; rw [positionLimit]; omega))]
  dsimp only [Header.announcedRecords]
  split
  · exact mirrors_throw_bind _ _ _
  · exact mirrors_pure _

theorem mirrors_parseExtension (h : Header) :
    Mirrors Eq (parseExtension h) h.parseExtension := by
  unfold parseExtension
  cases hsignature : h.signature with
  | wdc2 =>
      unfold Header.parseExtension
      rw [hsignature]
      exact mirrors_parseSectioned h
  | _ => exact mirrors_parse _

theorem mirrors_parseHeader (signature : Signature) :
    Mirrors Eq (parseHeader signature) (Header.parse signature) := by
  unfold parseHeader Header.parse
  split
  · exact mirrors_throw_bind _ _ _
  · refine (mirrors_parse _).bind fun recordCount => ?_
    split
    · exact mirrors_pure none
    · iterate 3 refine (mirrors_parse _).bind fun _ => ?_
      exact (mirrors_parseExtension _).bind fun _ => (mirrors_parse _).bind fun _ => mirrors_pure _

theorem mirrors_parseStart : Mirrors Eq parseStart Metadata.parseStart :=
  (mirrors_parse _).bind fun signature => (mirrors_parseHeader signature).bind fun _ =>
    mirrors_pure _

section

variable {source : Source} {h : Header} {layout : Layout}

/-- Words are read from the start of the file, wherever the drive has been left. -/
theorem mirrors_words (horigin : source.origin = 0) {α : Type} {item : Guarded Input α}
    {parse : Parse α} (hitem : Mirrors Eq item parse) :
    Mirrors (Holds source) (Drive.seek 0 >>= fun _ => Drive.words item) (source.parse parse) := by
  rintro d count ⟨rfl, rfl⟩
  have hseek : 0 + d.source.origin < positionLimit := by
    rw [horigin]
    decide
  rw [on_bind_of_ok (Drive.on_seek_of_lt hseek), Drive.words, Guarded.on_focus]
  have hinput : Drive.input { d with position := 0 + d.source.origin } =
      .ofBytes (d.source.suffix 0) := by
    rw [Drive.input, Source.suffix_eq, Nat.zero_add, Nat.sub_self]
    rfl
  rw [hinput]
  obtain ⟨_, hrun, rfl⟩ := hitem _ _ (rfl : Input.ofBytes (d.source.suffix 0) = _)
  rw [hrun]
  refine ⟨_, rfl, rfl, ?_⟩
  rw [Source.on_parse]
  dsimp only [Drive.advance]
  rw [hinput]
  rfl

theorem isAddressable_of_findShared? (hlayout : layout.IsBounded h) {kind : SegmentKind}
    {segment : Segment} (hfound : layout.findShared? kind = some segment) :
    IsAddressable segment :=
  (hlayout.shared segment (List.mem_of_find?_eq_some hfound)).1

variable (horigin : source.origin = 0) (hlayout : layout.IsBounded h)

include horigin hlayout

theorem mirrors_readFieldInfos :
    Mirrors (Holds source) (readFieldInfos layout) (Descriptor.readFieldInfos source layout) := by
  unfold readFieldInfos Descriptor.readFieldInfos
  cases hfound : layout.findShared? .fieldInfo with
  | none => exact mirrors_pure []
  | some segment =>
      have hsegment := isAddressable_of_findShared? hlayout hfound
      refine (mirrors_readSegment horigin hsegment).bind fun block => ?_
      rw [trap_bind (Checked.div_of_ne (by decide))]
      exact mirrors_lift _

theorem mirrors_readStorageInfos :
    Mirrors (Holds source) (readStorageInfos layout)
      (Descriptor.readStorageInfos source layout) := by
  unfold readStorageInfos Descriptor.readStorageInfos
  cases hfound : layout.findShared? .fieldStorageInfo with
  | none => exact mirrors_pure []
  | some segment =>
      have hsegment := isAddressable_of_findShared? hlayout hfound
      dsimp only
      rw [trap_bind (Checked.rem_of_ne (by decide))]
      split
      · exact mirrors_throw_bind _ _ _
      · refine (mirrors_readSegment horigin hsegment).bind fun block => ?_
        rw [trap_bind (Checked.div_of_ne (by decide))]
        exact mirrors_lift _

theorem mirrors_readColumns (schema : Schema) :
    Mirrors (Holds source) (readColumns h layout schema)
      (Descriptor.readColumns source h layout schema) := by
  have hfew := Descriptor.ensures_readFieldInfos source hlayout
  unfold readColumns Descriptor.readColumns
  cases h.signature with
  | wdbc | wdb2 => exact mirrors_pure _
  | wdb3 | wdb4 => exact mirrors_throw _
  | wdb5 =>
      exact (mirrors_readFieldInfos horigin hlayout).bind_of_ensures hfew fun infos hcount =>
        mirrors_checked (fieldColumns_eq h hcount)
  | wdb6 =>
      exact (mirrors_readFieldInfos horigin hlayout).bind_of_ensures hfew fun infos hcount =>
        (mirrors_checked (fieldColumns_eq h hcount)).bind fun columns =>
          (mirrors_lift _).bind fun _ => mirrors_pure _
  | wdc1 | wdc2 =>
      exact (mirrors_readFieldInfos horigin hlayout).bind fun fields =>
        (mirrors_readStorageInfos horigin hlayout).bind fun infos =>
          mirrors_checked (storedDescriptors_eq fields 0 ⟨0, 0⟩ infos)

theorem mirrors_readDescriptors {schema : Schema}
    (hschema : schema.fields.length < Descriptor.schemaLimit) :
    Mirrors (Holds source) (readDescriptors h layout schema)
      (Descriptor.readAll source h layout schema) := by
  have hchecked (descriptors : List Descriptor)
      (hbounded : Descriptor.AreBounded (positionLimit - 1) descriptors) :
      Mirrors (Holds source) (do checkWidth h descriptors; return descriptors)
        (do Descriptor.checkWidth h descriptors; return descriptors) :=
    (mirrors_checked (checkWidth_eq h hbounded)).bind fun _ => mirrors_pure _
  refine (mirrors_readColumns horigin hlayout schema).bind_of_ensures
    (Descriptor.ensures_readColumns source hlayout hschema) fun columns hcolumns => ?_
  dsimp only
  split
  · refine mirrors_lift_bind fun column hcolumn => ?_
    have hboth := hcolumns.append (Descriptor.areBounded_relationshipColumn hcolumn)
    exact (mirrors_pure _).bind_of_ensures (ensures_pure hboth) hchecked
  · exact (mirrors_pure _).bind_of_ensures (ensures_pure hcolumns) hchecked

end

section

variable {source : Source} (horigin : source.origin = 0) {schema : Schema}
  (hschema : schema.fields.length < Descriptor.schemaLimit)

include horigin hschema

theorem mirrors_readPopulated (h : Header) :
    Mirrors (Holds source) (readPopulated h schema) (Metadata.readPopulated source h schema) :=
  (mirrors_checked (plan_eq h)).bind_of_ensures
    (ensures_lift fun _ hplan => Layout.isBounded_of_plan hplan) fun _ hlayout =>
      (mirrors_readDescriptors horigin hlayout hschema).bind fun _ =>
        (mirrors_lift _).bind fun _ => mirrors_pure _

/-- All of opening a file: its metadata are read on a machine without a trap. -/
theorem mirrors_readMetadata :
    Mirrors (Holds source) (readMetadata schema) (Metadata.read source schema) := by
  unfold readMetadata
  rw [← bind_assoc]
  refine (mirrors_words horigin mirrors_parseStart).bind ?_
  rintro ⟨signature, _ | h⟩
  · exact mirrors_pure _
  · exact mirrors_readPopulated horigin hschema h

end

end Machine

/-- What is known about a file has numbers that fit in the words of a machine. -/
structure Metadata.IsBounded (m : Metadata) : Prop where
  layout : ∀ h, m.header = some h → m.layout.IsBounded h
  descriptors : ∀ d ∈ m.descriptors, d.IsBounded
  mappings : ∀ mapping ∈ m.mappings, mapping.IsBounded
  sections : m.layout.sections.length ≤ wordLimit
  copies : m.recordCount + m.copyCount < positionLimit

namespace Machine

theorem length_sections_le {h : Header} (hfew : h.HasFewSections) {layout : Layout}
    (hlayout : layout.IsBounded h) : layout.sections.length ≤ wordLimit :=
  Nat.le_trans hlayout.count (Nat.max_le.mpr ⟨Nat.le_of_lt hfew, Nat.le_of_lt one_lt_wordLimit⟩)

theorem copyCount_le {h : Header} (hfew : h.HasFewSections) {m : Metadata}
    (hlayout : m.layout.IsBounded h) : m.copyCount ≤ wordLimit * (wordLimit / 8) := by
  have hcount := length_sections_le hfew hlayout
  refine Nat.le_trans (total_le_of_forall fun s hs => ?_) (Nat.mul_le_mul_right _ hcount)
  cases hfound : s.find? .copyTable with
  | none => exact Nat.zero_le _
  | some segment =>
      have hlength := (hlayout.sections s hs).length_of_copyTable hfound
      exact Nat.div_le_div_right (Nat.le_of_lt hlength)

theorem sectionCopies_eq (layout : SectionLayout) :
    sectionCopies layout = pure (match layout.find? .copyTable with
      | some segment => segment.length / 8
      | none => 0) := by
  unfold sectionCopies
  cases layout.find? .copyTable with
  | none => rfl
  | some segment =>
      dsimp only
      rw [Checked.div_of_ne (by decide)]
      rfl

theorem copyCount_eq {m : Metadata} (hm : m.IsBounded) : copyCount m = pure m.copyCount := by
  have hlimit : m.copyCount < positionLimit :=
    Nat.lt_of_le_of_lt (Nat.le_add_left ..) hm.copies
  unfold copyCount
  rw [mapM_eq_pure fun layout _ => sectionCopies_eq layout, pure_bind]
  change liftM (Checked.sum positionLimit _) = _
  rw [Checked.sum_of_lt (by exact hlimit)]
  rfl

theorem totalRecordCount_eq {m : Metadata} (hm : m.IsBounded) :
    totalRecordCount m = pure (m.recordCount + m.copyCount) := by
  unfold totalRecordCount
  rw [copyCount_eq hm, pure_bind, Checked.add_of_lt hm.copies]
  rfl

end Machine

namespace Metadata

theorem isBounded_ofEmptyFile (signature : Signature) (schema : Schema) :
    (ofEmptyFile signature schema).IsBounded where
  layout := nofun
  descriptors := nofun
  mappings := nofun
  sections := Nat.zero_le _
  copies := Nat.lt_trans zero_lt_wordLimit (by decide)

theorem isBounded_of_sectionMappings {h : Header} {layout : Layout} {descriptors : List Descriptor}
    (hbounded : ∀ d ∈ descriptors, d.IsBounded) {schema : Schema} {mappings : List Mapping}
    (hmappings : sectionMappings h layout descriptors schema = .ok mappings) :
    ∀ mapping ∈ mappings, mapping.IsBounded := by
  unfold sectionMappings at hmappings
  generalize layout.sections = sections at hmappings
  induction sections generalizing mappings with
  | nil =>
      cases hmappings
      exact nofun
  | cons s sections ih =>
      rw [List.mapM_cons] at hmappings
      obtain ⟨first, hfirst, hmappings⟩ := bind_eq_ok.mp hmappings
      obtain ⟨others, hothers, hmappings⟩ := bind_eq_ok.mp hmappings
      cases hmappings
      exact List.forall_mem_cons.mpr ⟨Mapping.isBounded_of_build hbounded hfirst, ih hothers⟩

/-- A file of whatever bytes leads to numbers that fit. -/
theorem ensures_read_isBounded (source : Source) {schema : Schema}
    (hschema : schema.fields.length < Descriptor.schemaLimit) :
    Ensures (Metadata.read source schema) IsBounded := by
  have hparse : Ensures parseStart fun start => ∀ h, start.2 = some h → h.HasFewSections :=
    ensures_bind fun signature => (Header.ensures_parse_hasFewSections signature).bind
      fun _ hfew => ensures_pure hfew
  refine (ensures_isRead source schema).mono fun m hm => ?_
  cases hm with
  | empty signature => exact isBounded_ofEmptyFile signature schema
  | @populated _ h layout descriptors mappings hstart hplan hread hmappings =>
      have hfew := hstart.of_ensures hparse h rfl
      have hlayout := Layout.isBounded_of_plan hplan
      have hdescriptors :=
        hread.of_ensures (Descriptor.ensures_readAll_areBounded source hlayout hschema)
      have hsections := Machine.length_sections_le hfew hlayout
      refine ⟨?_, hdescriptors.each, isBounded_of_sectionMappings hdescriptors.each hmappings,
        hsections, ?_⟩
      · rintro _ ⟨⟩
        exact hlayout
      · have hcopies := Machine.copyCount_le (m := ⟨h.signature, some h, layout, descriptors,
          schema, mappings⟩) hfew hlayout
        have hrecords : h.recordCount.toNat < wordLimit := h.recordCount.toNat_lt
        dsimp only [recordCount]
        rw [wordLimit] at *
        rw [positionLimit]
        omega

end Metadata

end ClientTable
