import ClientTable.Proofs.CommonValues
import ClientTable.Proofs.KeyColumns
import ClientTable.Proofs.FixedRows

namespace ClientTable

open Attempt

theorem SlotRun.exists_descriptor_of_mem {descriptors : List Descriptor} {slot : Slot}
    (h : slot ∈ flatten (ofDescriptors descriptors)) :
    ∃ d, descriptors[slot.descriptor]? = some d ∧ slot.isCommon = d.isCommon := by
  obtain ⟨r, hr, hslot⟩ := List.mem_flatMap.mp h
  obtain ⟨⟨d, index⟩, hd, rfl⟩ := List.mem_map.mp hr
  obtain ⟨element, _, rfl⟩ := List.mem_map.mp hslot
  exact ⟨d, List.mem_zipIdx_iff_getElem?.mp hd, rfl⟩

theorem RowContext.aligns_of_fixed {c : RowContext} (hfixed : c.isVariable = false)
    (bits : BitReader) : c.Aligns fun s t => s = t ∧ s.bits = bits where
  words d element signed := by
    unfold inlineWord
    rw [hfixed, if_neg Bool.false_ne_true]
    refine respects_get_bind ?_ fun s => respects_lift _
    rintro s _ ⟨rfl, _⟩
    rfl
  inlineTexts d element := by
    unfold inlineString
    rw [hfixed, if_neg Bool.false_ne_true]
    refine respects_get_bind ?_ fun s => (respects_lift _).bind fun stored =>
      (respects_lift _).bind fun offset => Decode.respects_string_of_put (fun _ _ => id) offset
    rintro s _ ⟨rfl, _⟩
    rfl
  texts := Decode.respects_string_of_put fun _ _ => id
  palletIndex h := congrArg RowState.palletIndex h.1
  put palletIndex h := ⟨congrArg (fun s => { s with palletIndex }) h.1, h.2⟩

theorem FieldPlan.leaves_bodyElements {c : RowContext} (hfixed : c.isVariable = false)
    (external : Option UInt32) (p : FieldPlan) :
    Leaves RowState.bits (p.bodyElements c external) :=
  leaves_of_respects fun bits =>
    (RowContext.aligns_of_fixed hfixed bits).respects_bodyElements external p

namespace Mapping

theorem Feeds.isRegular {indexField? : Option Nat} {position : Nat} {fields : List Field}
    {slots : List Slot} {plans : List FieldPlan}
    (h : Feeds indexField? position fields slots plans) : ∀ p ∈ plans, p.IsRegular := by
  induction h with
  | nil => exact nofun
  | indexed _ _ ih =>
      rintro p (_ | ⟨_, hp⟩)
      · rfl
      · exact ih p hp
  | @stored _ f _ taken _ _ _ hlength _ ih =>
      rintro p (_ | ⟨_, hp⟩)
      · refine ⟨?_, ?_⟩
        · rintro rfl
          exact Nat.ne_of_gt f.arity_pos hlength.symm
        · change f.isArray = decide (1 < taken.length)
          rw [hlength]
          rfl
      · exact ih p hp

namespace Built

variable {schema : Schema} {descriptors : List Descriptor} {column : Nat} {hasIndexTable : Bool}
  {m : Mapping}

theorem isRegular (h : Built schema descriptors column hasIndexTable m) :
    ∀ p ∈ m.fields, p.IsRegular :=
  h.feeds.isRegular

theorem mem_flatten (h : Built schema descriptors column hasIndexTable m) {p : FieldPlan}
    (hp : p ∈ m.fields) {slot : Slot} (hslot : slot ∈ p.source.slotList) :
    slot ∈ SlotRun.flatten (SlotRun.ofDescriptors descriptors) := by
  obtain ⟨left, hleft⟩ := h.slots_append
  rw [← hleft]
  exact List.mem_append_left _ (List.mem_flatMap.mpr ⟨p, hp, hslot⟩)

theorem exists_descriptor (h : Built schema descriptors column hasIndexTable m) {p : FieldPlan}
    (hp : p ∈ m.fields) {slot : Slot} (hslot : slot ∈ p.source.slotList) :
    ∃ d, descriptors[slot.descriptor]? = some d ∧ slot.isCommon = d.isCommon :=
  SlotRun.exists_descriptor_of_mem (h.mem_flatten hp hslot)

theorem length_eq (h : Built schema descriptors column hasIndexTable m) :
    m.fields.length = schema.fields.length :=
  h.feeds.length_eq

theorem serves (h : Built schema descriptors column hasIndexTable m) {i : Nat} {f : Field}
    (hf : schema.fields[i]? = some f) :
    ∃ p, m.fields[i]? = some p ∧ Serves (if hasIndexTable then some column else none) i f p := by
  obtain ⟨p, hp, hserves⟩ := h.feeds.serves hf
  rw [Nat.zero_add] at hserves
  exact ⟨p, hp, hserves⟩

end Built

theorem of_build_indexed {schema : Schema} {descriptors : List Descriptor} {column : Nat}
    {m : Mapping} (h : build schema descriptors column true = .ok m) :
    (∀ p ∈ m.fields, p.IsRegular) ∧ m.keyField? = some column ∧
      ∃ f, schema.fields[column]? = some f ∧
        m.fields[column]? = some ⟨f.kind, false, .indexTable⟩ := by
  have hbuilt := built_of_build h
  have hf := List.getElem?_eq_getElem (hbuilt.inside rfl)
  obtain ⟨p, hp, hserves⟩ := hbuilt.serves hf
  rw [Serves, if_pos rfl, if_pos rfl] at hserves
  exact ⟨hbuilt.isRegular, hbuilt.keyField, _, hf, hserves ▸ hp⟩

variable {m : Mapping} {c : RowContext} {texts : Bytes} {id : Option UInt32}
  {body : List Elements} {fields : List (List Scalar)}

end Mapping

namespace Mapping

variable {m : Mapping} {c : RowContext} {texts : Bytes} {id external : Option UInt32}
  {body : List Elements} {fields : List (List Scalar)} {s u : RowState} {k : UInt32}

theorem exists_element {position : Nat} {p : FieldPlan} (hp : m.fields[position]? = some p)
    {slot : Slot} (hslot : p.source.slotList.head? = some slot) (hstored : slot.isCommon = false)
    (hbody : (m.fields.mapM (FieldPlan.bodyElements c external)).on s = (.ok body, u)) :
    ∃ before t v t' rest, ((m.fields.take position).mapM
        (FieldPlan.bodyElements c external)).on s = (.ok before, t) ∧
      (c.element slot.descriptor slot.element p.kind).on t = (.ok v, t') ∧
      body[position]? = some (some v :: rest) := by
  obtain ⟨before, t, elements, t', hbefore, helements, hposition⟩ := exists_of_on_mapM hbody hp
  obtain ⟨kind, isArray, source⟩ := p
  cases source with
  | indexTable => cases hslot
  | slots slots =>
      cases slots with
      | nil => cases hslot
      | cons first slots =>
          cases hslot
          unfold FieldPlan.bodyElements at helements
          dsimp only at helements
          rw [List.mapM_cons] at helements
          obtain ⟨e, v, hfirst, helements⟩ := on_bind_eq_ok.mp helements
          obtain ⟨rest, w, _, helements⟩ := on_bind_eq_ok.mp helements
          cases helements
          rw [hstored, if_neg Bool.false_ne_true] at hfirst
          obtain ⟨value, x, helement, hfirst⟩ := on_bind_eq_ok.mp hfirst
          cases hfirst
          exact ⟨before, t, value, _, rest, hbefore, helement, hposition⟩

def decodedKey (m : Mapping) (body : List Elements) : Option UInt32 :=
  ((m.keyField?.bind fun position => body[position]?).getD []).head?.join.bind Scalar.toWord?

theorem bodyKey_of_fixed (hunread : m.decodedKey body = none) {column : Nat}
    (hdescriptor : m.keyDescriptor? = some column) (hfixed : c.isVariable = false) :
    m.bodyKey c body = do return some (← c.inlineKey column) := by
  unfold decodedKey at hunread
  unfold bodyKey
  dsimp only
  rw [hunread, hdescriptor, hfixed]
  rfl

theorem bodyKey_of_unknown (hunread : m.decodedKey body = none)
    (hunknown : c.isVariable = true ∨ m.keyDescriptor? = none) :
    m.bodyKey c body = return none := by
  unfold decodedKey at hunread
  unfold bodyKey
  dsimp only
  rw [hunread]
  rcases hunknown with hvariable | hdescriptor
  · rw [hvariable]
    cases m.keyDescriptor? <;> rfl
  · rw [hdescriptor]

variable {column : Nat} {schema : Schema}

end Mapping

end ClientTable
