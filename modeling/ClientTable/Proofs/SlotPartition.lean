import ClientTable.Proofs.IndexKeys
import ClientTable.Proofs.RowShapes

namespace ClientTable

open Attempt

/-- The position of a slot's descriptor, and its number among the elements there. -/
def Slot.place (s : Slot) : Nat × Nat :=
  (s.descriptor, s.element)

/-- The places of all stored elements, field after field. -/
def Descriptor.places (descriptors : List Descriptor) : List (Nat × Nat) :=
  descriptors.zipIdx.flatMap fun (d, index) =>
    (List.range d.cardinality).map fun element => (index, element)

theorem SlotRun.map_place_flatten (descriptors : List Descriptor) :
    (flatten (ofDescriptors descriptors)).map Slot.place = Descriptor.places descriptors := by
  rw [flatten, ofDescriptors, List.flatMap_map, List.map_flatMap, Descriptor.places]
  congr
  funext p
  obtain ⟨d, index⟩ := p
  simp [slots, front, ofDescriptor, Slot.place, List.range_eq_range']

namespace Field

def stored (indexField? : Option Nat) (position : Nat) (fields : List Field) : List Field :=
  ((fields.zipIdx position).filter fun (_, i) => indexField? ≠ some i).map Prod.fst

theorem stored_cons (indexField? : Option Nat) (position : Nat) (f : Field) (fields : List Field) :
    stored indexField? position (f :: fields) =
      if indexField? = some position then stored indexField? (position + 1) fields
      else f :: stored indexField? (position + 1) fields := by
  unfold stored
  rw [List.zipIdx_cons, List.filter_cons]
  by_cases hposition : indexField? = some position <;> simp [hposition]

/-- The number of stored elements that fields take. -/
def demand (fields : List Field) : Nat :=
  total (fields.map arity)

end Field

/-- The fields of a schema that take stored elements: all but the one at the column for keys, if
there is an index table to feed that. -/
def Schema.stored (schema : Schema) (column : Nat) (indexed : Bool) : List Field :=
  Field.stored (if indexed then some column else none) 0 schema.fields

namespace Mapping

variable {indexField? : Option Nat} {position : Nat} {fields : List Field} {slots : List Slot}
  {plans : List FieldPlan}

theorem Feeds.length_slots (h : Feeds indexField? position fields slots plans) :
    (plans.flatMap fun p => p.source.slotList).length =
      Field.demand (Field.stored indexField? position fields) := by
  induction h with
  | nil => rfl
  | indexed hposition _ ih =>
      rw [Field.stored_cons, if_pos hposition]
      exact ih
  | stored hposition hlength _ ih =>
      rw [Field.stored_cons, if_neg hposition, List.flatMap_cons, List.length_append, ih]
      exact congrArg (· + _) hlength

/-- Slots suffice for fields if and only if there are as many as the fields have elements. -/
theorem exists_feeds_iff :
    (∃ plans, Feeds indexField? position fields slots plans) ↔
      Field.demand (Field.stored indexField? position fields) ≤ slots.length := by
  -- Fed fields use up their slots; the other way, each field takes its share off the front.
  constructor
  · rintro ⟨plans, h⟩
    obtain ⟨left, hleft⟩ := h.exists_append
    rw [← h.length_slots, ← hleft, List.length_append]
    exact Nat.le_add_right ..
  · intro henough
    induction fields generalizing position slots with
    | nil => exact ⟨[], Feeds.nil position slots⟩
    | cons f fields ih =>
        rw [Field.stored_cons] at henough
        by_cases hposition : indexField? = some position
        · rw [if_pos hposition] at henough
          obtain ⟨plans, hplans⟩ := ih henough
          exact ⟨_, Feeds.indexed hposition hplans⟩
        · rw [if_neg hposition, Field.demand, List.map_cons, total_cons, ← Field.demand] at henough
          have hleft : Field.demand (Field.stored indexField? (position + 1) fields) ≤
              (slots.drop f.arity).length := by
            rw [List.length_drop]
            omega
          obtain ⟨plans, hplans⟩ := ih hleft
          have hfeeds := Feeds.stored hposition
            (List.length_take_of_le (Nat.le_of_add_right_le henough)) hplans
          rw [List.take_append_drop] at hfeeds
          exact ⟨_, hfeeds⟩

variable {schema : Schema} {descriptors : List Descriptor} {column : Nat} {indexed : Bool}
  {m : Mapping}

theorem checkIndexField_eq_ok_iff :
    checkIndexField schema column = .ok () ↔ ¬ Unfeedable schema column := by
  unfold checkIndexField Unfeedable
  cases hf : schema.fields[column]? with
  | none => simp
  | some f =>
      dsimp only
      by_cases hbad : f.kind = .text ∨ f.isArray
      · rw [if_pos hbad]
        simp [hbad]
      · rw [if_neg hbad]
        exact ⟨fun _ hall => hbad (hall f rfl), fun _ => rfl⟩

theorem exists_assign_iff (schema : Schema) (descriptors : List Descriptor)
    (indexField? : Option Nat) :
    (∃ plans, assign indexField? 0 schema.fields (SlotRun.ofDescriptors descriptors) = .ok plans) ↔
      Field.demand (Field.stored indexField? 0 schema.fields) ≤
        (Descriptor.places descriptors).length := by
  rw [← SlotRun.map_place_flatten, List.length_map, ← exists_feeds_iff]
  constructor
  · rintro ⟨plans, h⟩
    exact ⟨plans, feeds_of_assign h⟩
  · rintro ⟨plans, h⟩
    exact ⟨plans, assign_of_feeds h rfl⟩

theorem arity_eq_one_of_build (h : build schema descriptors column true = .ok m) {f : Field}
    (hf : schema.fields[column]? = some f) : f.arity = 1 := by
  by_contra hmany
  refine not_unfeedable_of_build h fun g hg => ?_
  rw [hf] at hg
  cases hg
  have hpositive := f.arity_pos
  exact Or.inr (decide_eq_true (by omega))

/-- A mapping can be built if there are enough stored elements and, where there is an index table, a
field that it can feed. -/
theorem exists_build_iff :
    (∃ m, build schema descriptors column indexed = .ok m) ↔
      (indexed = true → ¬ Unfeedable schema column) ∧
        Field.demand (schema.stored column indexed) ≤ (Descriptor.places descriptors).length := by
  have henough := exists_assign_iff schema descriptors (if indexed then some column else none)
  rw [Schema.stored, ← henough]
  cases indexed with
  | true =>
      constructor
      · rintro ⟨m, h⟩
        refine ⟨fun _ => not_unfeedable_of_build h, m.fields, (built_of_build h).fields⟩
      · rintro ⟨hfeedable, plans, hplans⟩
        refine ⟨⟨plans, some column, none⟩, ?_⟩
        refine bind_eq_ok.mpr ⟨(), checkIndexField_eq_ok_iff.mpr (hfeedable rfl), ?_⟩
        exact bind_eq_ok.mpr ⟨plans, hplans, rfl⟩
  | false =>
      constructor
      · rintro ⟨m, h⟩
        exact ⟨nofun, m.fields, (built_of_build h).fields⟩
      · rintro ⟨_, plans, hplans⟩
        exact ⟨_, bind_eq_ok.mpr ⟨plans, hplans, rfl⟩⟩

/-- A field starts with an element of a descriptor. -/
def StartsIn (m : Mapping) (descriptor position : Nat) : Prop :=
  ∃ p slot, m.fields[position]? = some p ∧ p.source.slotList.head? = some slot ∧
    slot.descriptor = descriptor

/-- How a mapping shares out the stored elements among the fields of a schema. -/
structure Partitions (schema : Schema) (descriptors : List Descriptor) (column : Nat)
    (indexed : Bool) (m : Mapping) : Prop where
  length : m.fields.length = schema.size
  serves : ∀ (i : Nat) f, schema.fields[i]? = some f →
    ∃ p, m.fields[i]? = some p ∧ Serves (if indexed then some column else none) i f p
  places : m.slots.map Slot.place =
    (Descriptor.places descriptors).take (Field.demand (schema.stored column indexed))
  common : ∀ slot ∈ m.slots, ∃ d, descriptors[slot.descriptor]? = some d ∧
    (slot.isCommon = true ↔ ∃ default chunk, d.storage = .common default chunk)
  indexedKey : indexed = true → m.keyField? = some column
  inlineKey : indexed = false → ∀ i, m.keyField? = some i ↔
    m.StartsIn column i ∧ ∀ j < i, ¬ m.StartsIn column j

theorem findIdx?_startsAt_iff {i : Nat} :
    m.fields.findIdx? (FieldPlan.startsAt column) = some i ↔
      m.StartsIn column i ∧ ∀ j < i, ¬ m.StartsIn column j := by
  have hstarts (j : Nat) (hj : j < m.fields.length) :
      m.fields[j].startsAt column = true ↔ m.StartsIn column j := by
    unfold FieldPlan.startsAt StartsIn
    rw [Option.any_eq_true]
    constructor
    · rintro ⟨slot, hslot, hdescriptor⟩
      exact ⟨_, slot, List.getElem?_eq_getElem hj, hslot, of_decide_eq_true hdescriptor⟩
    · rintro ⟨p, slot, hp, hslot, hdescriptor⟩
      rw [List.getElem?_eq_getElem hj] at hp
      obtain rfl := Option.some.inj hp
      exact ⟨slot, hslot, decide_eq_true hdescriptor⟩
  rw [List.findIdx?_eq_some_iff_getElem]
  constructor
  · rintro ⟨hi, hfirst, hbefore⟩
    refine ⟨(hstarts i hi).mp hfirst, fun j hj hother => ?_⟩
    exact hbefore j hj ((hstarts j (Nat.lt_trans hj hi)).mpr hother)
  · rintro ⟨hfirst, hbefore⟩
    obtain ⟨p, slot, hp, _⟩ := id hfirst
    have hi := (List.getElem?_eq_some_iff.mp hp).1
    refine ⟨hi, (hstarts i hi).mpr hfirst, fun j hj hother => ?_⟩
    exact hbefore j hj ((hstarts j (Nat.lt_trans hj hi)).mp hother)

theorem partitions_of_build (h : build schema descriptors column indexed = .ok m) :
    m.Partitions schema descriptors column indexed := by
  have hbuilt := built_of_build h
  refine ⟨hbuilt.length_eq, fun i f hf => hbuilt.serves hf, ?_, ?_, ?_, ?_⟩
  · obtain ⟨left, hleft⟩ := hbuilt.slots_append
    have hcount : m.slots.length = Field.demand (schema.stored column indexed) :=
      hbuilt.feeds.length_slots
    rw [← SlotRun.map_place_flatten, ← hleft, List.map_append, ← hcount, ← List.length_map,
      List.take_left]
  · intro slot hslot
    obtain ⟨p, hp, hslot⟩ := List.mem_flatMap.mp hslot
    obtain ⟨d, hd, hcommon⟩ := hbuilt.exists_descriptor hp hslot
    refine ⟨d, hd, ?_⟩
    rw [hcommon, Descriptor.isCommon]
    cases d.storage <;> simp
  · rintro rfl
    exact hbuilt.keyField
  · rintro rfl i
    rw [hbuilt.keyField]
    exact findIdx?_startsAt_iff

/-- The values of a row have the shape that the schema asks for. -/
theorem forall₂_shows_of_values (h : build schema descriptors column indexed = .ok m)
    {c : RowContext} {external : Option UInt32} {values : List Value} {s : RowState}
    (hvalues : ((m.values c external).on s).1 = .ok values) :
    List.Forall₂ Field.Shows schema.fields values := by
  have hbuilt := built_of_build h
  obtain ⟨fields, rfl, hcomplete⟩ := ensures_values hbuilt.isRegular s values hvalues
  have hlength := hcomplete.length_eq
  have hsize := hbuilt.length_eq
  rw [List.forall₂_iff_get]
  refine ⟨by rw [List.length_map]; omega, fun i hi hi' => ?_⟩
  rw [List.length_map] at hi'
  obtain ⟨p, hp, hserves⟩ := hbuilt.serves (List.getElem?_eq_getElem hi)
  obtain ⟨hip, rfl⟩ := List.getElem?_eq_some_iff.mp hp
  have hscalars := List.Forall₂.get hcomplete hip hi'
  simp only [List.get_eq_getElem, List.getElem_map] at hscalars ⊢
  apply Field.shows_ofScalars
  unfold FieldPlan.Complete FieldPlan.width at hscalars
  by_cases hposition : (if indexed then some column else none) = some i
  · rw [Serves, if_pos hposition] at hserves
    rw [hserves] at hscalars
    cases indexed with
    | false => cases hposition
    | true =>
        cases hposition
        rw [arity_eq_one_of_build h (List.getElem?_eq_getElem hi)]
        exact hscalars
  · rw [Serves, if_neg hposition] at hserves
    obtain ⟨slots, hslots, hcount⟩ := hserves
    rw [hslots] at hscalars
    exact hcount ▸ hscalars

/-- Without an index table a schema can be fed if and only if there are as many stored elements as
its fields have. With one, the field in the column for keys takes none of them, and has to be there
as a number that is no array. The fields take the elements from the front on, in order and without
gaps; and whatever row is decoded then, its record holds one value for each field, with as many
elements as the field has. -/
theorem build_partitions (schema : Schema) (descriptors : List Descriptor) (column : Nat)
    (indexed : Bool) :
    ((∃ m, build schema descriptors column indexed = .ok m) ↔
      (indexed = true → ¬ Unfeedable schema column) ∧
        Field.demand (schema.stored column indexed) ≤ (Descriptor.places descriptors).length) ∧
    (∀ e, build schema descriptors column indexed = .error e → ∃ fault, e = .invalid fault) ∧
    ∀ m, build schema descriptors column indexed = .ok m →
      m.Partitions schema descriptors column indexed ∧
      ∀ (s : Section) metadata shared row data record,
        (s.decodeRow metadata shared m row data).1 = .ok record →
          record.keyField = m.keyField ∧ List.Forall₂ Field.Shows schema.fields record.values := by
  refine ⟨exists_build_iff, fun e => exists_fault_of_build, fun m h => ?_⟩
  refine ⟨partitions_of_build h, ?_⟩
  intro s metadata shared row data record hrecord
  obtain ⟨_, values, t, hvalues, rfl⟩ := Section.of_decodeRow hrecord
  exact ⟨rfl, forall₂_shows_of_values h (congrArg Prod.fst hvalues)⟩

theorem build_partitions_uneven :
    let schema : Schema := ⟨[.scalar "first" .u8, .scalar "id" .u32, .array "pair" .u8 2]⟩
    let descriptors : List Descriptor := [⟨0, 8, 2, .plain false⟩, ⟨0, 0, 1, .common 9 .none⟩]
    ∃ m, build schema descriptors 1 true = .ok m ∧ m.Partitions schema descriptors 1 true ∧
      m.slots = [⟨0, 0, false⟩, ⟨0, 1, false⟩, ⟨1, 0, true⟩] ∧
      ∃ (s : Section) (metadata : Metadata) (record : Record),
        (s.decodeRow metadata ⟨none, none⟩ m ⟨0, 0, 2⟩ [3, 4]).1 = .ok record ∧
        record.values = [.scalar (.int ⟨.w8, false⟩ 3), .scalar (.int ⟨.w32, false⟩ 7),
          .array [.scalar (.int ⟨.w8, false⟩ 4), .scalar (.int ⟨.w8, false⟩ 9)]] ∧
        List.Forall₂ Field.Shows schema.fields record.values := by
  intro schema descriptors
  let s : Section :=
    ⟨0, .fixed 0 2 1 0, false, false, .ofBytes [] false, 0, some ⟨[7]⟩, .empty, none, none⟩
  let metadata : Metadata := ⟨.wdc1, none, .empty, descriptors, schema, []⟩
  let m : Mapping := ⟨[⟨.u8, false, .slots [⟨0, 0, false⟩]⟩, ⟨.u32, false, .indexTable⟩,
    ⟨.u8, true, .slots [⟨0, 1, false⟩, ⟨1, 0, true⟩]⟩], some 1, none⟩
  let record : Record := ⟨schema, [.scalar (.int ⟨.w8, false⟩ 3), .scalar (.int ⟨.w32, false⟩ 7),
    .array [.scalar (.int ⟨.w8, false⟩ 4), .scalar (.int ⟨.w8, false⟩ 9)]], 1⟩
  have hm : build schema descriptors 1 true = .ok m := by decide +kernel
  have hrecord : (s.decodeRow metadata ⟨none, none⟩ m ⟨0, 0, 2⟩ [3, 4]).1 = .ok record := by
    decide +kernel
  obtain ⟨_, _, hbuilt⟩ := build_partitions schema descriptors 1 true
  obtain ⟨hpartitions, hshows⟩ := hbuilt m hm
  refine ⟨m, hm, hpartitions, rfl, s, metadata, record, hrecord, rfl, ?_⟩
  exact (hshows s metadata _ _ _ _ hrecord).2

end Mapping

end ClientTable
