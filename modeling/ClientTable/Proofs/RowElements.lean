import ClientTable.Proofs.RecordKeys
import ClientTable.Proofs.RowIsolation

namespace ClientTable

open Attempt

variable {data texts : Bytes}

/-- Both states are one state of decoding the row, in a section with the given texts. -/
def RowState.Holds (data texts : Bytes) (s t : RowState) : Prop :=
  s = t ∧ s.bits.data = data ∧ s.strings.Keeps texts

theorem Decode.respects_bits_of_data {α : Type} {read : BitRead α}
    (h : ∀ r : BitReader, (read.on r).2.data = r.data) :
    Respects (RowState.Holds data texts) (Decode.bits read) := by
  rintro s _ ⟨rfl, hdata, hstrings⟩
  rw [Decode.bits, on_focus]
  exact ⟨rfl, rfl, (h s.bits).trans hdata, hstrings⟩

theorem Decode.respects_string_of_holds (offset : UInt32) :
    Respects (RowState.Holds data texts) (Decode.string offset) := by
  refine Respects.bind ?_ fun text => respects_pure _
  rintro s _ ⟨rfl, hdata, hstrings⟩
  exact ⟨rfl, rfl, hdata, (hstrings.on_resolve offset).2⟩

theorem BitRead.data_word (count : Nat) (signed : Bool) (r : BitReader) :
    ((word count signed).on r).2.data = r.data := by
  rw [on_word]
  cases r.readWordAt r.cursor count signed <;> rfl

theorem BitRead.data_text (r : BitReader) : (text.on r).2.data = r.data := by
  by_cases haligned : r.cursor % 8 = 0
  · rw [on_text_of_aligned haligned]
    cases terminated? (r.data.drop (r.cursor / 8)) <;> rfl
  · rw [on_text_of_unaligned haligned]

theorem RowContext.aligns_holds (c : RowContext) (data texts : Bytes) :
    c.Aligns (RowState.Holds data texts) where
  words d element signed := by
    unfold inlineWord
    split
    · exact Decode.respects_bits_of_data (BitRead.data_word _ _)
    · refine respects_get_bind ?_ fun s => respects_lift _
      rintro s _ ⟨rfl, _⟩
      rfl
  inlineTexts d element := by
    unfold inlineString
    split
    · exact (Decode.respects_bits_of_data BitRead.data_text).bind fun text => respects_pure _
    · refine respects_get_bind ?_ fun s => (respects_lift _).bind fun stored =>
        (respects_lift _).bind fun offset => Decode.respects_string_of_holds offset
      rintro s _ ⟨rfl, _⟩
      rfl
  texts := Decode.respects_string_of_holds
  palletIndex h := congrArg RowState.palletIndex h.1
  put palletIndex h := ⟨congrArg (fun s => { s with palletIndex }) h.1, h.2⟩

namespace Mapping

variable {c : RowContext} {m : Mapping} {external : Option UInt32} {kind : FieldKind} {slot : Slot}
  {s t : RowState}

theorem Reaches.holds (h : m.Reaches c external s kind slot t) (hs : s.strings.Keeps texts) :
    t.bits.data = s.bits.data ∧ t.strings.Keeps texts := by
  obtain ⟨-, before, p, after, earlier, later, body, middle, elements, -, -, -, hbefore,
    hearlier⟩ := h
  have haligns := c.aligns_holds s.bits.data texts
  have hmiddle := (respects_mapM (haligns.respects_bodyElements external) before s s
    ⟨rfl, rfl, hs⟩).2
  rw [hbefore] at hmiddle
  have hends := (respects_mapM (haligns.respects_bodyElement kind) earlier middle middle
    hmiddle).2
  rw [hearlier] at hends
  exact hends.2

/-- Each element that needs no key has been read in a state that decoding comes to. -/
theorem exists_read {values : List Value} (hregular : ∀ p ∈ m.fields, p.IsRegular)
    (hs : s.strings.Keeps texts) (h : (m.values c external).on s = (.ok values, t)) {i j : Nat}
    {isArray : Bool} {slots : List Slot} (hp : m.fields[i]? = some ⟨kind, isArray, .slots slots⟩)
    (hslot : slots[j]? = some slot) (hstored : slot.isCommon = false) :
    ∃ scalars v u, values[i]? = some (.ofScalars scalars) ∧ scalars[j]? = some v ∧
      m.Reaches c external s kind slot u ∧
      ((c.element slot.descriptor slot.element kind).on u).1 = .ok v := by
  obtain ⟨body, w, id, fields, hbody, -, rfl, hall⟩ := on_values hregular hs h
  obtain ⟨before, middle, elements, after, hbefore, helements, hposition⟩ :=
    exists_of_on_mapM hbody hp
  obtain ⟨scalars, hscalars, hfilled⟩ := hall i _ elements hp hposition
  obtain ⟨earlier, u, e, u', hearlier, helement, he⟩ := exists_of_on_mapM
    (f := FieldPlan.bodyElement c kind) helements hslot
  unfold FieldPlan.bodyElement at helement
  rw [hstored, if_neg Bool.false_ne_true] at helement
  obtain ⟨v, x, hread, helement⟩ := on_bind_eq_ok.mp helement
  cases helement
  refine ⟨scalars, v, u, by rw [List.getElem?_map, hscalars]; rfl, hfilled.known j v he, ?_,
    congrArg Prod.fst hread⟩
  exact ⟨hstored, m.fields.take i, _, m.fields.drop (i + 1), slots.take j, slots.drop (j + 1),
    before, middle, earlier, eq_take_append_cons hp, rfl,
    congrArg FieldSource.slots (eq_take_append_cons hslot), hbefore, hearlier⟩

end Mapping

namespace Section

variable {source : Source} {m : Metadata} {shared : SharedTables} {s : Section} {row : Row}
  {kind : FieldKind} {slot : Slot} {state : RowState}

theorem ComesTo.holds (h : s.ComesTo source m shared row kind slot state)
    (hs : s.strings.Keeps texts) :
    source.block row.offset row.length = .ok state.bits.data ∧ state.strings.Keeps texts := by
  obtain ⟨mapping, data, key, -, hdata, -, hreaches⟩ := h
  obtain ⟨hsame, hstrings⟩ := hreaches.holds hs
  exact ⟨hdata.trans (congrArg Except.ok hsame.symm), hstrings⟩

end Section

/-- The element at a position in the value of a field. -/
def Record.element? (r : Record) (field position : Nat) : Option Scalar :=
  (r.at? field).bind fun value => value.scalars[position]?

namespace Reader

variable {stream : Stream} {schema : Schema} {options : Options} {reader : Reader}
  {records : Records} {count : Nat} {h : Header} {layout : SectionLayout} {s : Section} {row : Row}
  {base : Record}

/-- In the records of a section the stored element feeds a position in the value of a field, as an
element of the kind. -/
def Feeds (reader : Reader) (layout : SectionLayout) (slot : Slot) (kind : FieldKind)
    (field position : Nat) : Prop :=
  ∃ m isArray slots, reader.metadata.mappings[layout.index]? = some m ∧
    m.fields[field]? = some ⟨kind, isArray, .slots slots⟩ ∧ slots[position]? = some slot

/-- Elements of a record that need no key have been read in states that decoding its row comes
to. -/
theorem HasRecord.exists_read (hbase : reader.HasRecord records h layout s row base)
    (hopen : ((ofStream stream schema options).on count).1 = .ok reader) {slot : Slot}
    {kind : FieldKind} {field position : Nat}
    (hfeeds : reader.Feeds layout slot kind field position)
    {d : Descriptor} (hd : reader.metadata.descriptors[slot.descriptor]? = some d)
    (hstored : d.isCommon = false) :
    ∃ v state, base.element? field position = some v ∧
      s.ComesTo reader.source reader.metadata records.shared row kind slot state ∧
      (((s.context reader.metadata records.shared row).element slot.descriptor slot.element
        kind).on state).1 = .ok v := by
  obtain ⟨m, isArray, slots, hm, hp, hslot⟩ := hfeeds
  obtain ⟨hheader, hlayout, hopens, -, hdecodes⟩ := id hbase
  obtain ⟨hindex, -⟩ :=
    Section.ensures_read_keys reader.source h layout reader.options.internStrings 0 s hopens
  have hkept := hbase.hasSection.fresh.strings
  obtain ⟨-, hmapping⟩ := ensures_isMapped stream schema options count reader hopen
  obtain ⟨mapping, hsame, hbuild⟩ := hmapping h hheader layout hlayout
  rw [hm] at hsame
  cases hsame
  have hbuilt := Mapping.built_of_build hbuild
  obtain ⟨other, hother, hcommon⟩ :=
    hbuilt.exists_descriptor (List.mem_of_getElem? hp) (List.mem_of_getElem? hslot)
  rw [hd] at hother
  cases hother
  obtain ⟨mapping, data, values, t, hmapping, hdata, hsome, hvalues, rfl⟩ :=
    Section.exists_of_decoded hdecodes
  rw [hindex, hm] at hmapping
  cases hmapping
  obtain ⟨scalars, v, state, hvalue, hv, hreaches, hread⟩ :=
    Mapping.exists_read hbuilt.isRegular hkept hvalues hp hslot (hcommon.trans hstored)
  refine ⟨v, state, ?_, ⟨m, data, _, ?_, hdata, ?_, hreaches⟩, hread⟩
  · change (values[field]?.bind fun value => value.scalars[position]?) = some v
    rw [hvalue, Option.bind_some, Value.scalars_ofScalars, hv]
  · rw [hindex, hm]
  · exact Section.externalKey_of_isSome hsome

end Reader

end ClientTable
