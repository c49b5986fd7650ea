import ClientTable.Proofs.RowIsolation
import ClientTable.Proofs.SlotPartition

namespace ClientTable

open Attempt

namespace Descriptor

/-- A column of one element for each record, which is kept outside of its row. -/
def IsOutside (d : Descriptor) : Prop :=
  d.cardinality = 1 ∧ (d.isCommon = true ∨ d.storage = .relationship)

theorem placesFrom_of_single {index : Nat} {descriptors : List Descriptor}
    (h : ∀ d ∈ descriptors, d.cardinality = 1) :
    ((descriptors.zipIdx index).flatMap fun (d, index) =>
      (List.range d.cardinality).map fun element => (index, element)) =
        (List.range' index descriptors.length).map fun index => (index, 0) := by
  induction descriptors generalizing index with
  | nil => rfl
  | cons d descriptors ih =>
      rw [List.zipIdx_cons, List.flatMap_cons, List.length_cons, List.range'_succ, List.map_cons,
        ih fun other hother => h other (List.mem_cons_of_mem _ hother)]
      dsimp only
      rw [h d (List.mem_cons_self ..)]
      rfl

/-- Behind columns of one element each come the other elements of the last column in the rows, if it
has any, and then the columns outside of the rows. -/
theorem getElem?_places {front trailing : List Descriptor} {last : Descriptor}
    (hfront : ∀ d ∈ front, d.cardinality = 1) (hlast : 0 < last.cardinality)
    (htrailing : ∀ d ∈ trailing, d.cardinality = 1) {j : Nat} (hj : j < trailing.length) :
    (places (front ++ last :: trailing))[front.length + 1 + j]? =
      if j + 1 < last.cardinality then some (front.length, j + 1)
      else some (front.length + 1 + (j + 1 - last.cardinality), 0) := by
  have hplaces : places (front ++ last :: trailing) =
      (List.range' 0 front.length).map (fun index => (index, 0)) ++
        ((List.range last.cardinality).map (fun element => (front.length, element)) ++
          (List.range' (front.length + 1) trailing.length).map fun index => (index, 0)) := by
    rw [places, List.zipIdx_append, List.flatMap_append, placesFrom_of_single hfront,
      List.zipIdx_cons, List.flatMap_cons, Nat.zero_add, placesFrom_of_single htrailing]
  have hposition : front.length + 1 + j =
      ((List.range' 0 front.length).map fun index => (index, 0)).length + (j + 1) := by
    rw [List.length_map, List.length_range']
    omega
  rw [hplaces, hposition, List.getElem?_append_right (Nat.le_add_right ..), Nat.add_sub_cancel_left]
  split
  case isTrue hinside =>
    rw [List.getElem?_append_left (by simpa using hinside), List.getElem?_map,
      List.getElem?_range hinside]
    rfl
  case isFalse hbehind =>
    rw [List.getElem?_append_right (by simpa using hbehind), List.length_map, List.length_range,
      List.getElem?_map, List.getElem?_range' (by omega)]
    simp

end Descriptor

namespace FieldInfo

/-- A column is followed immediately by the next. -/
def Precedes (info next : FieldInfo) : Prop :=
  (next.bitOffset : Int) = info.bitOffset + info.declaredBits

/-- The number of whole elements that fit behind the first one of the last column in the rows. -/
def spare (h : Header) (last : FieldInfo) : Nat :=
  (h.recordBits - last.bitOffset) / last.declaredBits.toNat - 1

theorem spare_eq_zero {h : Header} {last : FieldInfo}
    (hpadding : (h.recordBits : Int) < last.bitOffset + 2 * last.declaredBits) :
    last.spare h = 0 := by
  unfold spare
  rcases Nat.eq_zero_or_pos last.declaredBits.toNat with hnone | hpositive
  · rw [hnone, Nat.div_zero]
  · have hfew : (h.recordBits - last.bitOffset) / last.declaredBits.toNat < 2 :=
      Nat.div_lt_of_lt_mul (by omega)
    omega

theorem bitSize_eq_ok {info : FieldInfo} {size : Nat} (h : info.bitSize = .ok size) :
    0 < size ∧ size = info.declaredBits.toNat ∧ (size : Int) = info.declaredBits := by
  unfold bitSize at h
  split at h
  case isTrue hwidth =>
    cases h
    omega
  case isFalse => cases h

/-- Columns that follow one another immediately have one element each, except for the last. -/
theorem cardinality_of_precedes {h : Header} (hfixed : h.hasOffsetMap = false)
    (hnarrow : h.recordBits < wordLimit) {earlier : List FieldInfo} {last : FieldInfo}
    (hdense : (earlier ++ [last]).IsChain Precedes) {index : Nat} {columns : List Descriptor}
    (hcolumns : descriptors h index (earlier ++ [last]) = .ok columns) :
    ∃ front d, columns = front ++ [d] ∧ front.length = earlier.length ∧
      (∀ other ∈ front, other.cardinality = 1) ∧ d.cardinality = last.spare h + 1 := by
  -- Before the last entry, the gap to the next one is as wide as one element.
  induction earlier generalizing index columns with
  | nil =>
      obtain ⟨size, hsize, hcolumns⟩ := bind_eq_ok.mp hcolumns
      obtain ⟨hpositive, rfl, _⟩ := bitSize_eq_ok hsize
      obtain ⟨count, hcount, hcolumns⟩ := bind_eq_ok.mp hcolumns
      cases hcolumns
      refine ⟨[], _, rfl, rfl, nofun, ?_⟩
      unfold elements at hcount
      rw [hfixed, if_neg Bool.false_ne_true] at hcount
      cases hcount
      have hbelow : (h.recordBits - last.bitOffset) / last.declaredBits.toNat < wordLimit :=
        Nat.lt_of_le_of_lt ((Nat.div_le_self ..).trans (Nat.sub_le ..)) hnarrow
      dsimp only
      rw [Nat.mod_eq_of_lt hbelow, spare]
      omega
  | cons info earlier ih =>
      rw [List.cons_append] at hcolumns hdense
      obtain ⟨size, hsize, hcolumns⟩ := bind_eq_ok.mp hcolumns
      obtain ⟨hpositive, _, hwidth⟩ := bitSize_eq_ok hsize
      obtain ⟨count, hcount, hcolumns⟩ := bind_eq_ok.mp hcolumns
      obtain ⟨others, hothers, hcolumns⟩ := bind_eq_ok.mp hcolumns
      cases hcolumns
      obtain ⟨front, d, rfl, hlength, hfront, hlast⟩ := ih hdense.tail hothers
      refine ⟨_ :: front, d, rfl, congrArg Nat.succ hlength, ?_, hlast⟩
      rintro other (_ | ⟨_, hother⟩)
      · obtain ⟨next, rest, hrest⟩ : ∃ next rest, earlier ++ [last] = next :: rest :=
          List.exists_cons_of_ne_nil (by simp)
        rw [hrest] at hcount hdense
        have hgap : Precedes info next := (List.isChain_cons_cons.mp hdense).1
        unfold Precedes at hgap
        unfold elements at hcount
        dsimp only at hcount
        split at hcount
        · cases hcount
        · cases hcount
          have hsame : next.bitOffset - info.bitOffset = size := by omega
          dsimp only
          rw [hsame, Nat.div_self hpositive]
          rfl
      · exact hfront other hother

end FieldInfo

namespace Descriptor

theorem isOutside_of_commonColumns {h : Header} {columns : List Descriptor}
    (hcolumns : commonColumns h = .ok columns) :
    h.recordBits < wordLimit ∧ ∀ d ∈ columns, d.IsOutside := by
  obtain ⟨offset, hend, hcolumns⟩ := bind_eq_ok.mp hcolumns
  cases hcolumns
  unfold recordEnd at hend
  split at hend
  case isTrue => cases hend
  case isFalse hnarrow =>
    refine ⟨Nat.not_le.mp hnarrow, fun d hd => ?_⟩
    rw [List.eq_of_mem_replicate hd]
    exact ⟨rfl, Or.inl rfl⟩

theorem isOutside_of_relationshipColumn {h : Header} {d : Descriptor}
    (hcolumn : relationshipColumn h = .ok d) : h.recordBits < wordLimit ∧ d.IsOutside := by
  obtain ⟨offset, hend, hcolumn⟩ := bind_eq_ok.mp hcolumn
  cases hcolumn
  unfold recordEnd at hend
  split at hend
  case isTrue => cases hend
  case isFalse hnarrow => exact ⟨Nat.not_le.mp hnarrow, rfl, Or.inr rfl⟩

/-- The columns in the rows, which field info describes, and behind them those outside. -/
structure Trails (h : Header) (infos : List FieldInfo) (columns descriptors : List Descriptor)
    (trailing : List Descriptor) : Prop where
  described : FieldInfo.descriptors h 0 infos = .ok columns
  append : descriptors = columns ++ trailing
  outside : ∀ d ∈ trailing, h.recordBits < wordLimit ∧ d.IsOutside

theorem ensures_readColumns_trails (source : Source) {h : Header}
    (hsignature : h.signature = .wdb5 ∨ h.signature = .wdb6) (layout : Layout) (schema : Schema) :
    Ensures (readColumns source h layout schema) fun descriptors =>
      ∃ infos columns trailing, (readFieldInfos source layout).outcome = .ok infos ∧
        Trails h infos columns descriptors trailing := by
  have hinfos : Ensures (readFieldInfos source layout) fun infos =>
      (readFieldInfos source layout).outcome = .ok infos := by
    intro count infos hread
    rw [← (matches_readFieldInfos source.matches_self layout).on_eq count]
    exact hread
  unfold readColumns
  rcases hsignature with hsignature | hsignature <;> rw [hsignature]
  · refine hinfos.bind fun infos hread => ensures_lift fun columns hcolumns => ?_
    exact ⟨infos, columns, [], hread, hcolumns, (List.append_nil columns).symm, nofun⟩
  · refine hinfos.bind fun infos hread => ?_
    refine Ensures.bind (Q := fun columns => FieldInfo.descriptors h 0 infos = .ok columns)
      (ensures_lift fun _ => id) fun columns hcolumns => ?_
    refine Ensures.bind (Q := fun others => commonColumns h = .ok others)
      (ensures_lift fun _ => id) fun others hothers => ensures_pure ?_
    obtain ⟨hnarrow, houtside⟩ := isOutside_of_commonColumns hothers
    exact ⟨infos, columns, others, hread, hcolumns, rfl, fun d hd => ⟨hnarrow, houtside d hd⟩⟩

theorem ensures_readAll_trails (source : Source) {h : Header}
    (hsignature : h.signature = .wdb5 ∨ h.signature = .wdb6) (layout : Layout) (schema : Schema) :
    Ensures (readAll source h layout schema) fun descriptors =>
      ∃ infos columns trailing, (readFieldInfos source layout).outcome = .ok infos ∧
        Trails h infos columns descriptors trailing := by
  intro count descriptors hread
  obtain ⟨columns, ⟨infos, fields, trailing, hinfos, htrails⟩, hcompletes⟩ :=
    ensures_readAll (ensures_readColumns_trails source hsignature layout schema) count descriptors
      hread
  cases hcompletes with
  | columns => exact ⟨infos, fields, trailing, hinfos, htrails⟩
  | related hlast =>
      obtain ⟨hfields, rfl, houtside⟩ := htrails
      refine ⟨infos, fields, trailing ++ [_], hinfos, hfields, List.append_assoc .., ?_⟩
      intro d hd
      rcases List.mem_append.mp hd with hd | hd
      · exact houtside d hd
      · rw [List.mem_singleton.mp hd]
        exact isOutside_of_relationshipColumn hlast

end Descriptor

theorem Layout.find?_indexTable_of_plan {h : Header} {layout : Layout}
    (hsignature : h.signature = .wdb5 ∨ h.signature = .wdb6)
    (hunindexed : h.flags.hasIndexTable = false) (hplan : plan h = .ok layout) :
    ∀ s ∈ layout.sections, s.find? .indexTable = none := by
  have hnone (extent : Extent) : (SegmentKind.indexTable, extent) ∉ flaggedRequests h := by
    unfold flaggedRequests recordArea stringsOrOffsets sized words
    rw [hunindexed, if_neg Bool.false_ne_true]
    split <;> split <;> split <;> simp
  obtain ⟨segments, hplace, rfl⟩ := exists_of_plan_flagged hsignature hplan
  intro s hs
  obtain rfl := List.mem_singleton.mp hs
  apply List.find?_eq_none.mpr
  intro segment hsegment
  obtain ⟨_, extent, hrequest, _⟩ := mem_place hplace segment (List.mem_of_mem_filter hsegment)
  have hkind : segment.kind ≠ .indexTable := by
    rintro hkind
    rw [hkind] at hrequest
    exact hnone extent hrequest
  simp [hkind]

/-- What a column outside of the rows keeps for a row: its common data under an id, or the foreign
key of the row. -/
def RowContext.KeepsOutside (c : RowContext) (texts : Bytes) (id : Option UInt32) (index : Nat)
    (kind : FieldKind) (v : Scalar) : Prop :=
  ∃ d, c.descriptors[index]? = some d ∧
    match d.storage with
    | .common .. => c.commonScalar texts id index kind = .ok v
    | .relationship =>
      let key := c.relationships.bind fun r => r.foreignKey? (UInt32.ofNat c.index)
      Scalar.ofTableWord texts (key.getD 0) kind = .ok v
    | _ => False

namespace Mapping

variable {c : RowContext} {texts : Bytes} {m : Mapping} {s t : RowState} {values : List Value}

/-- The id under which the common data of a row is looked up, without an index table. -/
def rowId (m : Mapping) (c : RowContext) : Decode (Option UInt32) := do
  m.bodyKey c (← m.fields.mapM (FieldPlan.bodyElements c none))

/-- Where every field is one element, each is fed with the slot in its own place. -/
theorem Feeds.exists_slot {position : Nat} {fields : List Field} {slots : List Slot}
    {plans : List FieldPlan} (h : Feeds none position fields slots plans)
    (hscalar : ∀ f ∈ fields, f.isArray = false) {i : Nat} {f : Field} (hf : fields[i]? = some f) :
    ∃ slot, slots[i]? = some slot ∧ plans[i]? = some ⟨f.kind, false, .slots [slot]⟩ := by
  induction h generalizing i with
  | nil => cases hf
  | indexed hposition => cases hposition
  | @stored position g fields taken left plans _ hlength _ ih =>
      have hfirst := hscalar g (List.mem_cons_self ..)
      have hone : g.arity = 1 := by
        have hpositive := g.arity_pos
        have hfew : ¬ 1 < g.arity := of_decide_eq_false hfirst
        omega
      obtain ⟨slot, rfl⟩ := List.length_eq_one_iff.mp (hlength.trans hone)
      cases i with
      | zero =>
          cases hf
          rw [hfirst]
          exact ⟨slot, rfl, rfl⟩
      | succ i => exact ih (fun f hf => hscalar f (List.mem_cons_of_mem _ hf)) hf

theorem keepsOutside_of_element {slot : Slot} {kind : FieldKind} {d : Descriptor}
    (hs : s.strings.Keeps texts) (hd : c.descriptors[slot.descriptor]? = some d)
    (hforeign : d.storage = .relationship) {v : Scalar}
    (h : (c.element slot.descriptor slot.element kind).on s = (.ok v, t)) (id : Option UInt32) :
    c.KeepsOutside texts id slot.descriptor kind v := by
  obtain ⟨other, u, hlift, h⟩ := on_bind_eq_ok.mp h
  obtain ⟨hother, rfl⟩ := on_lift_eq_ok hlift
  obtain rfl := Option.some.inj ((RowContext.of_descriptor hother).symm.trans hd)
  rw [hforeign] at h
  refine ⟨other, hd, ?_⟩
  rw [hforeign]
  exact (RowContext.on_wordScalar hs h).1

/-- A field that is fed from a column outside of the rows has what the column keeps for the row. -/
theorem keepsOutside_of_values (hregular : ∀ p ∈ m.fields, p.IsRegular)
    (hs : s.strings.Keeps texts) (h : (m.values c none).on s = (.ok values, t)) :
    ∃ id, (m.needsKey = true → ((m.rowId c).on s).1 = .ok id) ∧
      ∀ (i : Nat) kind slot d, m.fields[i]? = some ⟨kind, false, .slots [slot]⟩ →
        c.descriptors[slot.descriptor]? = some d → slot.isCommon = d.isCommon → d.IsOutside →
        ∃ v, values[i]? = some (.scalar v) ∧ c.KeepsOutside texts id slot.descriptor kind v := by
  obtain ⟨body, u, id, fields, hbody, hlooks, rfl, hall⟩ := on_values hregular hs h
  refine ⟨id, fun hneeds => ?_, ?_⟩
  · rw [rowId, on_bind_of_ok hbody]
    exact hlooks hneeds
  · intro i kind slot d hp hd hsame houtside
    obtain ⟨before, w, elements, w', hbefore, helements, hposition⟩ := exists_of_on_mapM hbody hp
    have hstarted := FieldPlan.started_of_on_bodyElements helements
    obtain ⟨scalars, hscalars, hfilled⟩ := hall i _ elements hp hposition
    obtain ⟨v, rfl⟩ := List.length_eq_one_iff.mp
      (hfilled.length.trans (FieldPlan.length_eq_width hstarted))
    refine ⟨v, by rw [List.getElem?_map, hscalars]; rfl, ?_⟩
    rcases houtside.2 with hcommon | hforeign
    · obtain ⟨value, hvalue, hkept⟩ := hfilled.common 0 slot rfl (hsame.trans hcommon)
      cases hvalue
      refine ⟨d, hd, ?_⟩
      unfold Descriptor.isCommon at hcommon
      cases hstorage : d.storage with
      | common => exact hkept
      | _ =>
          rw [hstorage] at hcommon
          cases hcommon
    · have hstored : slot.isCommon = false := by
        rw [hsame, Descriptor.isCommon, hforeign]
      obtain ⟨others, x, value, x', rest, hothers, helement, hfirst⟩ :=
        exists_element hp rfl hstored hbody
      rw [hposition] at hfirst
      cases hfirst
      obtain rfl : v = value := Option.some.inj (hfilled.known 0 value rfl)
      have hx := hs.of_respects
        (respects_mapM ((c.aligns_alike texts).respects_bodyElements none) (m.fields.take i))
      rw [hothers] at hx
      exact keepsOutside_of_element hx hd hforeign helement id

/-- Where every field is one element, those behind the columns in the rows take first what elements
the last of these has besides, and then the columns outside of the rows. -/
theorem Built.exists_trailing {schema : Schema} {descriptors columns trailing : List Descriptor}
    {column : Nat} (hbuilt : Built schema descriptors column false m)
    (hscalar : ∀ f ∈ schema.fields, f.isArray = false) {h : Header}
    (hfixed : h.hasOffsetMap = false)
    {earlier : List FieldInfo} {last : FieldInfo}
    (hdense : (earlier ++ [last]).IsChain FieldInfo.Precedes)
    (htrails : Descriptor.Trails h (earlier ++ [last]) columns descriptors trailing)
    (hsize : schema.size = earlier.length + 1 + trailing.length) {j : Nat}
    (hj : j < trailing.length) :
    ∃ f slot d, schema.fields[earlier.length + 1 + j]? = some f ∧
      m.fields[earlier.length + 1 + j]? = some ⟨f.kind, false, .slots [slot]⟩ ∧
      slot.place = (if j < last.spare h then (earlier.length, j + 1)
        else (earlier.length + 1 + (j - last.spare h), 0)) ∧
      descriptors[earlier.length + 1 + j]? = some d ∧ d.IsOutside := by
  obtain ⟨hdescribed, rfl, houtside⟩ := htrails
  obtain ⟨hnarrow, hd⟩ := houtside trailing[j] (List.getElem_mem hj)
  obtain ⟨front, d, rfl, hlength, hfront, hcount⟩ :=
    FieldInfo.cardinality_of_precedes hfixed hnarrow hdense hdescribed
  rw [← hlength] at hsize ⊢
  have hinside : front.length + 1 + j < schema.fields.length := by
    change _ < schema.size
    omega
  have hfeeds : Feeds none 0 schema.fields
      (SlotRun.flatten (SlotRun.ofDescriptors (front ++ [d] ++ trailing))) m.fields := hbuilt.feeds
  obtain ⟨slot, hslot, hp⟩ := hfeeds.exists_slot hscalar (List.getElem?_eq_getElem hinside)
  have hplace := congrArg (Option.map Slot.place) hslot
  rw [← List.getElem?_map, SlotRun.map_place_flatten, List.append_assoc, List.singleton_append,
    Descriptor.getElem?_places hfront (by omega) (fun other hother => (houtside other hother).2.1)
      hj, hcount, Option.map_some] at hplace
  refine ⟨_, slot, trailing[j], List.getElem?_eq_getElem hinside, hp, ?_, ?_, hd⟩
  · split at hplace
    case isTrue hspare =>
      rw [if_pos (by omega)]
      exact (Option.some.inj hplace).symm
    case isFalse hspare =>
      rw [if_neg (by omega), ← Option.some.inj hplace]
      congr 1
      omega
  · rw [List.getElem?_append_right (by simp), List.length_append, List.length_singleton,
      Nat.add_sub_cancel_left, List.getElem?_eq_getElem hj]

end Mapping

namespace Reader

theorem ensures_trails (stream : Stream) (schema : Schema) (options : Options) :
    Ensures (ofStream stream schema options) fun reader => ∀ h, reader.metadata.header = some h →
      (h.signature = .wdb5 ∨ h.signature = .wdb6) →
      ∃ infos columns trailing,
        (Descriptor.readFieldInfos reader.source reader.metadata.layout).outcome = .ok infos ∧
          Descriptor.Trails h infos columns reader.metadata.descriptors trailing :=
  (ensures_isRead stream schema options).mono fun reader hm _ hheader hsignature =>
    (hm.of_header hheader).2.of_ensures
      (Descriptor.ensures_readAll_trails reader.source hsignature reader.metadata.layout schema)

variable {stream : Stream} {schema : Schema} {options : Options} {reader : Reader} {count t : Nat}
  {h : Header} {earlier : List FieldInfo} {last : FieldInfo}

/-- Where every field is one element, those behind the columns in the rows take first what elements
the last column has besides, and then the columns outside of the rows. -/
theorem trailing_columns (hopen : ((ofStream stream schema options).on count).1 = .ok reader)
    (hheader : reader.metadata.header = some h)
    (hsignature : h.signature = .wdb5 ∨ h.signature = .wdb6) (hfixed : h.hasOffsetMap = false)
    (hunindexed : h.flags.hasIndexTable = false)
    (hinfos : (Descriptor.readFieldInfos reader.source reader.metadata.layout).outcome =
      .ok (earlier ++ [last]))
    (hdense : (earlier ++ [last]).IsChain FieldInfo.Precedes)
    (hcolumns : reader.metadata.descriptors.length = earlier.length + 1 + t)
    (hsize : schema.size = earlier.length + 1 + t)
    (hscalar : ∀ f ∈ schema.fields, f.isArray = false)
    {layout : SectionLayout} (hlayout : layout ∈ reader.metadata.layout.sections) :
    ∃ m, reader.metadata.mappings[layout.index]? = some m ∧
      (∀ j < t, ∃ f slot d, schema.fields[earlier.length + 1 + j]? = some f ∧
        m.fields[earlier.length + 1 + j]? = some ⟨f.kind, false, .slots [slot]⟩ ∧
        slot.place = (if j < last.spare h then (earlier.length, j + 1)
          else (earlier.length + 1 + (j - last.spare h), 0)) ∧
        reader.metadata.descriptors[earlier.length + 1 + j]? = some d ∧ d.IsOutside) ∧
      ((h.recordBits : Int) < last.bitOffset + 2 * last.declaredBits →
        ∀ {records s row base}, reader.HasRecord records h layout s row base →
          ∃ data id, reader.source.block row.offset row.length = .ok data ∧
            (m.needsKey = true → ((m.rowId (s.context reader.metadata records.shared row)).on
              (.start data s.strings)).1 = .ok id) ∧
            ∀ j < t, ∃ f slot v, schema.fields[earlier.length + 1 + j]? = some f ∧
              m.fields[earlier.length + 1 + j]? = some ⟨f.kind, false, .slots [slot]⟩ ∧
              slot.place = (earlier.length + 1 + j, 0) ∧
              base.at? (earlier.length + 1 + j) = some (.scalar v) ∧
              (s.context reader.metadata records.shared row).KeepsOutside s.strings.bytes id
                (earlier.length + 1 + j) f.kind v) := by
  have hplan := ensures_plan stream schema options count reader hopen h hheader
  have htable := Layout.find?_indexTable_of_plan hsignature hunindexed hplan layout hlayout
  obtain ⟨_, hmapping⟩ := ensures_isMapped stream schema options count reader hopen
  obtain ⟨m, hm, hbuild⟩ := hmapping h hheader layout hlayout
  unfold Metadata.sectionMapping at hbuild
  rw [htable, Option.isSome_none] at hbuild
  have hbuilt := Mapping.built_of_build hbuild
  obtain ⟨infos, columns, trailing, hread, htrails⟩ :=
    ensures_trails stream schema options count reader hopen h hheader hsignature
  obtain rfl := Except.ok.inj (hinfos.symm.trans hread)
  obtain rfl : trailing.length = t := by
    have hlength := (FieldInfo.plain_of_descriptors htrails.described).1
    rw [htrails.append, List.length_append, hlength, List.length_append,
      List.length_singleton] at hcolumns
    omega
  have hfed (j : Nat) (hj : j < trailing.length) :=
    hbuilt.exists_trailing hscalar hfixed hdense htrails hsize hj
  -- Without spare elements every field behind the rows is fed from the column in its own place.
  refine ⟨m, hm, hfed, fun hpadding records s row base hbase => ?_⟩
  obtain ⟨hindex, hkeys⟩ :=
    Section.ensures_read_keys reader.source h layout reader.options.internStrings 0 s hbase.opens
  have hkept := (Section.ensures_read reader.source h layout reader.options.internStrings 0 s
    hbase.opens).strings
  obtain ⟨_, data, values, u, hm', hdata, hsome, hvalues, rfl⟩ :=
    Section.exists_of_decoded hbase.decodes
  rw [hindex, hm] at hm'
  cases hm'
  rw [htable] at hkeys
  rw [hkeys] at hsome
  rw [Option.not_isSome_iff_eq_none.mp (ne_true_of_eq_false hsome)] at hvalues
  obtain ⟨id, hid, houtside⟩ := Mapping.keepsOutside_of_values hbuilt.isRegular hkept hvalues
  refine ⟨data, id, hdata, hid, fun j hj => ?_⟩
  obtain ⟨f, slot, d, hf, hp, hplace, hd, hdOutside⟩ := hfed j hj
  rw [FieldInfo.spare_eq_zero hpadding, if_neg (Nat.not_lt_zero j), Nat.sub_zero] at hplace
  have hslot : slot.descriptor = earlier.length + 1 + j := congrArg Prod.fst hplace
  obtain ⟨other, hother, hcommon⟩ := hbuilt.exists_descriptor (List.mem_of_getElem? hp)
    (List.mem_singleton.mpr rfl)
  have hsame : other = d := by
    rw [hslot, hd] at hother
    exact (Option.some.inj hother).symm
  obtain ⟨v, hv, hkeeps⟩ := houtside _ f.kind slot d hp (hslot ▸ hd) (hsame ▸ hcommon) hdOutside
  exact ⟨f, slot, v, hf, hp, hplace, hv, hslot ▸ hkeeps⟩

/-- A record of one column, with a common-data column and a foreign key. The two bytes behind the
column are too few for another element. -/
def trailedRow : Bytes :=
  wordFile .wdb6 [1, 1, 6, 0, 0, 0, 0, 0, 0, 0, 2, 2, 13, 0] ++ [5, 0, 0, 0, 1, 2] ++
    ([7, 1] : List UInt32).flatMap wordBytes ++ 3 :: ([5, 70] : List UInt32).flatMap wordBytes

theorem trailing_columns_trailedRow :
    ∃ f ∈ firstRecord? trailedRow
        ⟨[.scalar "id" .u32, .scalar "power" .u32, .scalar "parent" .u32]⟩,
      f.base.values.map Value.toWord? = [some 5, some 70, some 7] ∧
      (f.header.recordBits : Int) <
        (⟨0, 0⟩ : FieldInfo).bitOffset + 2 * (⟨0, 0⟩ : FieldInfo).declaredBits ∧
      ∃ id, ∀ j < 2, ∃ v, f.base.at? (1 + j) = some (.scalar v) ∧
        (f.opened.context f.reader.metadata f.records.shared f.row).KeepsOutside
          f.opened.strings.bytes id (1 + j) .u32 v := by
  have hrun : ∃ f ∈ firstRecord? trailedRow
        ⟨[.scalar "id" .u32, .scalar "power" .u32, .scalar "parent" .u32]⟩,
      f.base.values.map Value.toWord? = [some 5, some 70, some 7] ∧ f.header.signature = .wdb6 ∧
        f.header.hasOffsetMap = false ∧ f.header.flags.hasIndexTable = false ∧
        (Descriptor.readFieldInfos f.reader.source f.reader.metadata.layout).outcome =
          .ok ([] ++ [⟨0, 0⟩]) ∧
        f.reader.metadata.descriptors.length = 3 ∧ f.header.recordBits = 48 := by
    decide +kernel
  obtain ⟨f, hf, hvalues, hsignature, hfixed, hunindexed, hinfos, hcolumns, hbits⟩ := hrun
  obtain ⟨hopen, _, hbase⟩ := FirstRecord.hasRecord hf
  have hpadding : (f.header.recordBits : Int) <
      (⟨0, 0⟩ : FieldInfo).bitOffset + 2 * (⟨0, 0⟩ : FieldInfo).declaredBits := by
    rw [hbits]
    decide
  obtain ⟨m, _, _, hdecodes⟩ := trailing_columns (t := 2) hopen hbase.isHeader
    (Or.inr hsignature) hfixed hunindexed hinfos (List.isChain_singleton _) hcolumns rfl (by decide)
    hbase.isSection
  obtain ⟨_, id, _, _, houtside⟩ := hdecodes hpadding hbase
  refine ⟨f, hf, hvalues, hpadding, id, fun j hj => ?_⟩
  obtain ⟨g, _, v, hg, _, _, hv, hkeeps⟩ := houtside j hj
  match j, hg with
  | 0, rfl => exact ⟨v, hv, hkeeps⟩
  | 1, rfl => exact ⟨v, hv, hkeeps⟩

/-- The four bytes behind the only column of the record count as another element of it, which comes
before the foreign key. -/
def paddedRow : Bytes :=
  wordFile .wdb5 [1, 1, 8, 0, 0, 0, 0, 0, 0, 0, 2, 0, 5, 9, 7]

theorem padding_before_trailing_column :
    ∃ f ∈ firstRecord? paddedRow ⟨[.scalar "id" .u32, .scalar "parent" .u32]⟩,
      (Descriptor.readFieldInfos f.reader.source f.reader.metadata.layout).outcome =
        .ok [⟨0, 0⟩] ∧
      f.reader.metadata.descriptors.map Descriptor.storage = [.plain false, .relationship] ∧
      (f.opened.relationships.bind fun r => r.foreignKey? 0) = some 7 ∧
      f.base.values.map Value.toWord? = [some 5, some 9] := by
  decide +kernel

end Reader

end ClientTable
