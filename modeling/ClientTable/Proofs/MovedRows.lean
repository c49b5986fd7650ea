import ClientTable.Proofs.MovedSections
import ClientTable.Proofs.Projection

namespace ClientTable

open Attempt

variable {distance : Nat} {texts : Bytes}

/-- What is known about a row that stands later, with its string block. -/
def RowContext.move (distance : Nat) (c : RowContext) : RowContext :=
  { c with offset := c.offset + distance, stringBlockStart := c.stringBlockStart + distance }

theorem StringTable.le_of_textAt {offset : UInt32} {text : String}
    (h : textAt texts offset = .ok text) : offset.toNat ≤ texts.length := by
  unfold textAt at h
  split at h
  · cases h
  · omega

theorem Decode.le_of_on_string {offset : UInt32} {s t : RowState} {value : Scalar}
    (hs : s.strings.Keeps texts) (h : (Decode.string offset).on s = (.ok value, t)) :
    offset.toNat ≤ texts.length := by
  obtain ⟨text, u, hlookup, _⟩ := on_bind_eq_ok.mp h
  rw [on_focus] at hlookup
  have hfound := (hs.on_resolve offset).1
  rw [congrArg Prod.fst hlookup] at hfound
  exact StringTable.le_of_textAt hfound.symm

namespace RowContext

variable {c : RowContext}

theorem stringOffset_move {bit stored : Nat} {offset : UInt32}
    (hroom : c.stringBlockStart + texts.length + distance < positionLimit)
    (h : c.stringOffset bit stored = .ok offset) (hoffset : offset.toNat ≤ texts.length) :
    (c.move distance).stringOffset bit stored = .ok offset := by
  have hposition : (c.move distance).offset + bit / 8 + stored =
      c.offset + bit / 8 + stored + distance := by
    change c.offset + distance + bit / 8 + stored = _
    omega
  have hblock : (c.move distance).stringBlockStart = c.stringBlockStart + distance := rfl
  unfold stringOffset at h ⊢
  dsimp only at h ⊢
  rw [hposition, hblock, Nat.add_sub_add_right]
  change (if c.hasRelativeStrings then _ else _) = _
  split at h
  case isFalse hplain =>
    rw [if_neg hplain]
    exact h
  case isTrue hrelative =>
    split at h
    case isTrue => cases h
    case isFalse =>
      split at h
      case isTrue => cases h
      case isFalse =>
        split at h
        case isTrue => cases h
        case isFalse hrange =>
          cases h
          rw [toNat_ofNat_of_lt (Nat.not_le.mp hrange)] at hoffset
          rw [if_pos hrelative, if_neg (by omega), if_neg (by omega), if_neg hrange]
          rfl

/-- A string cell stands for the same text at its new place. -/
theorem follows_inlineString
    (hroom : c.stringBlockStart + texts.length + distance < positionLimit) (d : Descriptor)
    (element : Nat) :
    Follows (RowState.Alike texts) Eq (c.inlineString d element)
      ((c.move distance).inlineString d element) := by
  unfold inlineString
  change Follows _ _ _ (if c.isVariable then _ else _)
  split
  · exact ((Decode.respects_bits _).bind fun _ => respects_pure _).follows
  · intro s s' value t hs h
    obtain ⟨_, _, hget, h⟩ := on_bind_eq_ok.mp h
    cases hget
    obtain ⟨stored, _, hread, h⟩ := on_bind_eq_ok.mp h
    obtain ⟨hstored, rfl⟩ := on_lift_eq_ok hread
    obtain ⟨offset, _, hcell, h⟩ := on_bind_eq_ok.mp h
    obtain ⟨hoffset, rfl⟩ := on_lift_eq_ok hcell
    have hmoved := stringOffset_move hroom hoffset (Decode.le_of_on_string hs.left h)
    obtain ⟨t', h', ht⟩ :=
      (Decode.respects_string (RowState.textual_alike texts) offset).on_eq_ok hs h
    rw [hs.bits] at hstored
    refine ⟨value, t', ?_, rfl, ht⟩
    refine on_bind_eq_ok.mpr ⟨s', s', rfl, on_bind_eq_ok.mpr ⟨stored, s', ?_, ?_⟩⟩
    · rw [on_lift, hstored]
    · exact on_bind_eq_ok.mpr ⟨offset, s', by rw [on_lift, hmoved], h'⟩

def IsCell (d : Descriptor) (kind : FieldKind) : Prop :=
  kind = .text ∧ ∃ signed, d.storage = .plain signed ∨ d.storage = .immediate signed

theorem element_eq_inlineString {index : Nat} {d : Descriptor} {kind : FieldKind}
    (hd : c.descriptor index = .ok d) (hcell : IsCell d kind) (element : Nat) :
    c.element index element kind = c.inlineString d element := by
  obtain ⟨bitOffset, bitSize, cardinality, storage⟩ := d
  unfold RowContext.element
  rw [hd]
  obtain ⟨rfl, signed, hstorage | hstorage⟩ := hcell
  · obtain rfl : storage = .plain signed := hstorage
    rfl
  · obtain rfl : storage = .immediate signed := hstorage
    rfl

/-- Only string cells depend on where a row stands. -/
theorem element_move_eq {index : Nat} {d : Descriptor} {kind : FieldKind}
    (hd : c.descriptor index = .ok d) (hcell : ¬ IsCell d kind) (element : Nat) :
    (c.move distance).element index element kind = c.element index element kind := by
  have hdescriptor : (c.move distance).descriptor index = c.descriptor index := rfl
  unfold RowContext.element
  rw [hdescriptor, hd]
  obtain ⟨bitOffset, bitSize, cardinality, storage⟩ := d
  cases storage with
  | plain signed =>
      have hkind : kind ≠ .text := fun htext => hcell ⟨htext, signed, Or.inl rfl⟩
      simp only [if_neg hkind]
      rfl
  | immediate signed =>
      have hkind : kind ≠ .text := fun htext => hcell ⟨htext, signed, Or.inr rfl⟩
      simp only [if_neg hkind]
      rfl
  | common default chunk => rfl
  | pallet chunk => rfl
  | palletArray chunk => rfl
  | relationship => rfl

theorem follows_element (hroom : c.stringBlockStart + texts.length + distance < positionLimit)
    (index element : Nat) (kind : FieldKind) :
    Follows (RowState.Alike texts) Eq (c.element index element kind)
      ((c.move distance).element index element kind) := by
  intro s s' value t hs h
  obtain ⟨d, _, hdescriptor, _⟩ := on_bind_eq_ok.mp h
  obtain ⟨hd, _⟩ := on_lift_eq_ok hdescriptor
  by_cases hcell : IsCell d kind
  · rw [element_eq_inlineString hd hcell] at h
    rw [element_eq_inlineString (c := c.move distance) hd hcell]
    exact follows_inlineString hroom d element s s' value t hs h
  · rw [element_move_eq hd hcell]
    exact ((c.aligns_alike texts).respects_element index element kind).follows s s' value t hs h

end RowContext

section

variable {c : RowContext}

theorem FieldPlan.follows_bodyElements
    (hroom : c.stringBlockStart + texts.length + distance < positionLimit)
    (externalKey : Option UInt32) (p : FieldPlan) :
    Follows (RowState.Alike texts) Eq (p.bodyElements c externalKey)
      (p.bodyElements (c.move distance) externalKey) := by
  have hself : Respects (RowState.Alike texts) (p.bodyElements c externalKey) :=
    (c.aligns_alike texts).respects_bodyElements externalKey p
  unfold bodyElements at hself ⊢
  cases hsource : p.source with
  | indexTable =>
      rw [hsource] at hself
      exact hself.follows
  | slots slots =>
      refine follows_mapM (fun slot => ?_) slots
      split
      · exact follows_pure rfl
      · exact (RowContext.follows_element hroom _ _ _).bind_eq fun value => follows_pure rfl

theorem FieldPlan.fillElements_move (key : Option UInt32) (kind : FieldKind) (slots : List Slot)
    (elements : Elements) :
    fillElements (c.move distance) key kind slots elements =
      fillElements c key kind slots elements := by
  fun_induction fillElements c key kind slots elements with
  | case1 slot slots elements ih =>
      rw [fillElements, ih]
      rfl
  | case2 slot slots value elements ih => rw [fillElements, ih]
  | case3 slots elements hslot hvalue => rw [fillElements] <;> assumption

theorem Mapping.fillFields_move (key : Option UInt32) (plans : List FieldPlan)
    (fields : List Elements) :
    fillFields (c.move distance) key plans fields = fillFields c key plans fields := by
  fun_induction fillFields c key plans fields with
  | case1 p plans elements fields ih => rw [fillFields, FieldPlan.fillElements_move, ih]
  | case2 plans fields hcons =>
      rw [fillFields]
      assumption

theorem Mapping.follows_values
    (hroom : c.stringBlockStart + texts.length + distance < positionLimit) (m : Mapping)
    (externalKey : Option UInt32) :
    Follows (RowState.Alike texts) Eq (m.values c externalKey)
      (m.values (c.move distance) externalKey) := by
  refine (follows_mapM (FieldPlan.follows_bodyElements hroom externalKey) m.fields).bind_eq
    fun body => ?_
  simp only [Mapping.fillFields_move]
  have haligns := c.aligns_alike texts
  have hkey := haligns.respects_bodyKey m body
  exact (Mapping.respects_finish c haligns.texts hkey externalKey).follows

end

namespace Section

/-- The texts of a section are those of its string block. Without one, the section has none, and
they would stand behind its records. -/
structure HasTexts (source : Source) (layout : SectionLayout) (s : Section) : Prop where
  block : ∀ segment, layout.find? .stringBlock = some segment →
    source.block segment.start segment.length = .ok s.strings.bytes ∧
      s.stringBlockStart = segment.start
  absent : layout.find? .stringBlock = none → s.strings.bytes = [] ∧ ∃ area,
    (layout.segments.find? fun segment => segment.kind = .records) = some area ∧
      s.stringBlockStart = area.stop

theorem ensures_read_hasTexts (source : Source) (h : Header) (layout : SectionLayout)
    (intern : Bool) :
    Ensures (read source h layout intern) fun s => s.HasTexts source layout := by
  refine (ensures_read_putTogether source h layout intern).mono fun s ⟨area, hread⟩ => ?_
  have hstrings : Ensures (readStrings source layout area intern) fun strings =>
      (∀ segment, layout.find? .stringBlock = some segment →
        source.block segment.start segment.length = .ok strings.1.bytes ∧
          strings.2 = segment.start) ∧
      (layout.find? .stringBlock = none → strings.1.bytes = [] ∧ strings.2 = area.stop) := by
    unfold readStrings
    cases layout.find? .stringBlock with
    | none => exact ensures_pure ⟨nofun, fun _ => ⟨rfl, rfl⟩⟩
    | some segment =>
        have htable : Ensures (StringTable.read source segment intern) fun table =>
            source.block segment.start segment.length = .ok table.bytes :=
          (Source.ensures_readSegment source segment).bind fun block hread => ensures_pure hread
        refine htable.bind fun table htable => ensures_pure ⟨?_, nofun⟩
        rintro _ ⟨⟩
        exact ⟨htable, rfl⟩
  obtain ⟨hblock, habsent⟩ := hread.strings.of_ensures hstrings
  exact ⟨hblock, fun hnone => ⟨(habsent hnone).1, area, hread.records, (habsent hnone).2⟩⟩

theorem HasTexts.exists_stop {source : Source} {layout : SectionLayout} {s : Section}
    (h : s.HasTexts source layout) : ∃ segment ∈ layout.segments,
      s.stringBlockStart + s.strings.bytes.length = segment.stop := by
  cases hblock : layout.find? .stringBlock with
  | none =>
      obtain ⟨hnone, area, harea, hstart⟩ := h.absent hblock
      exact ⟨area, List.mem_of_find?_eq_some harea, by rw [hnone, hstart]; rfl⟩
  | some segment =>
      obtain ⟨hread, hstart⟩ := h.block segment hblock
      refine ⟨segment, List.mem_of_find?_eq_some hblock, ?_⟩
      rw [hstart, (Source.block_eq_ok_iff.mp hread).1]
      rfl

variable {source target : Source} {m m' : Metadata} {shared : SharedTables} {s t : Section}

/-- A row gives the same record at its new place. -/
theorem Moved.decoded (hmoved : s.Moved distance t) (hs : s.strings.Keeps texts)
    (hroom : s.stringBlockStart + texts.length + distance < positionLimit)
    (hdescriptors : m'.descriptors = m.descriptors) (hschema : m'.schema = m.schema)
    (hmappings : m'.mappings[t.index]? = m.mappings[s.index]?) {row : Row}
    (hrow : ∀ data, source.block row.offset row.length = .ok data →
      target.block (row.offset + distance) row.length = .ok data) {base : Record}
    (h : (s.decoded source m shared row).1 = .ok base) :
    (t.decoded target m' shared (row.move distance)).1 = .ok base := by
  obtain ⟨mapping, data, values, u, hmapping, hdata, hsome, hvalues, rfl⟩ := exists_of_decoded h
  have hcontext : t.context m' shared (row.move distance) =
      (s.context m shared row).move distance := by
    unfold context RowContext.move Row.move
    rw [hmoved.isVariable, hmoved.hasRelativeStrings, hmoved.stringBlockStart,
      hmoved.relationships, hdescriptors]
  have hkey : t.externalKey row.index = .ok (s.entry? row.index) := by
    unfold externalKey
    rw [hmoved.keys]
    exact externalKey_of_isSome hsome
  have hstart : RowState.Alike texts (.start data s.strings) (.start data s.strings) :=
    ⟨rfl, rfl, hs, hs⟩
  obtain ⟨_, u', hmovedValues, rfl, _⟩ :=
    Mapping.follows_values hroom mapping _ _ _ values u hstart hvalues
  unfold Section.decoded
  rw [hmappings, hmapping]
  dsimp only [Row.move]
  rw [hrow data hdata]
  dsimp only [decodeRow]
  rw [hkey, hmoved.strings, hschema]
  change (((mapping.values (t.context m' shared (row.move distance)) _).on _).1.map _) = _
  rw [hcontext, hmovedValues]
  rfl

theorem Moved.rowItems (hmoved : s.Moved distance t) (hs : s.strings.Keeps texts)
    (hroom : s.stringBlockStart + texts.length + distance < positionLimit)
    (hdescriptors : m'.descriptors = m.descriptors) (hschema : m'.schema = m.schema)
    (hmappings : m'.mappings[t.index]? = m.mappings[s.index]?) {row : Row}
    (hrow : ∀ data, source.block row.offset row.length = .ok data →
      target.block (row.offset + distance) row.length = .ok data)
    (herror : ∀ e, .error e ∉ s.rowItems source m shared row) :
    t.rowItems target m' shared (row.move distance) = s.rowItems source m shared row := by
  unfold Section.rowItems at herror ⊢
  cases hbase : (s.decoded source m shared row).1 with
  | error e =>
      rw [hbase] at herror
      exact absurd (List.mem_singleton_self _) (herror e)
  | ok base =>
      rw [hmoved.decoded hs hroom hdescriptors hschema hmappings hrow hbase]
      dsimp only
      unfold duplicateKeys
      rw [hmoved.copies]

end Section

/-- A section without an offset map that has been carried along to another file. -/
structure SectionLayout.Carried (distance : Nat) (source target : Source) (h : Header)
    (s t : SectionLayout) : Prop where
  moved : s.Moved distance t
  carries : ∀ segment ∈ s.segments, source.Carries distance target segment
  room : ∀ segment ∈ s.segments, segment.stop + distance < positionLimit
  area : ∀ segment, (s.segments.find? fun segment => segment.kind = .records) = some segment →
    segment.length = s.recordCount.toNat * h.recordSize.toNat

namespace Records

variable {source target : Source} {m m' : Metadata} {shared : SharedTables} {intern : Bool}
  {h h' : Header} {layout layout' : SectionLayout}

/-- Items of a section that end without an error are the same wherever the section stands. -/
theorem sectionItems_of_carried (hfixed : h.hasOffsetMap = false) (hflags : h'.flags = h.flags)
    (hsize : h'.recordSize = h.recordSize) (hsignature : h'.signature = h.signature)
    (hcarried : layout.Carried distance source target h layout')
    (hdescriptors : m'.descriptors = m.descriptors) (hschema : m'.schema = m.schema)
    (hmappings : m'.mappings[layout'.index]? = m.mappings[layout.index]?)
    (herror : ∀ e, .error e ∉ (fresh source m shared intern).sectionItems h layout) :
    (fresh target m' shared intern).sectionItems h' layout' =
      (fresh source m shared intern).sectionItems h layout := by
  unfold sectionItems at herror ⊢
  dsimp only [fresh] at herror ⊢
  cases hread : (Section.read source h layout intern).outcome with
  | error e =>
      rw [hread] at herror
      exact absurd (List.mem_singleton_self _) (herror e)
  | ok s =>
      rw [hread] at herror
      obtain ⟨t, htarget, hmoved⟩ := (Section.follows_read hfixed hflags hsize hsignature
        hcarried.moved hcarried.carries intern).exists_outcome hread
      have hfresh := Section.ensures_read source h layout intern 0 s hread
      have hindex := (Section.ensures_read_keys source h layout intern 0 s hread).1
      have hindex' := (Section.ensures_read_keys target h' layout' intern 0 t htarget).1
      obtain ⟨last, hlast, htexts⟩ :=
        (Section.ensures_read_hasTexts source h layout intern 0 s hread).exists_stop
      obtain ⟨area, harea, hrows⟩ := hfresh.fixed hfixed
      rw [htarget]
      dsimp only
      rw [hmoved.rows, List.flatMap_map]
      refine List.flatMap_congr fun row hrow => ?_
      refine hmoved.rowItems hfresh.strings ?_ hdescriptors hschema ?_ ?_ ?_
      · rw [htexts]
        exact hcarried.room last hlast
      · rw [hindex, hindex', hmappings]
      · -- The row is a part of the record area, which is carried.
        rw [hrows] at hrow
        obtain ⟨index, hlt, rfl⟩ := List.mem_map.mp hrow
        rw [List.mem_range'_1] at hlt
        have hinside : index * h.recordSize.toNat + h.recordSize.toNat ≤ area.length := by
          rw [hcarried.area area harea, ← Nat.succ_mul]
          exact Nat.mul_le_mul_right _ (by omega)
        exact fun data hdata => ((hcarried.carries area
          (List.mem_of_find?_eq_some harea)).part hinside).block hdata
      · exact fun e he => herror e (List.mem_flatMap.mpr ⟨row, hrow, he⟩)

end Records

end ClientTable
