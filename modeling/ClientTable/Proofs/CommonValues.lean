import ClientTable.Proofs.Interning
import ClientTable.Proofs.RowValues

namespace ClientTable

open Attempt

def Value.scalars : Value → List Scalar
  | scalar s => [s]
  | array elements => elements.filterMap scalar?

theorem Value.scalars_ofScalars (scalars : List Scalar) :
    (ofScalars scalars).scalars = scalars := by
  have harray : (scalars.map Value.scalar).filterMap scalar? = scalars := by
    rw [List.filterMap_map]
    exact List.filterMap_some
  match scalars, harray with
  | [], _ => rfl
  | [s], _ => rfl
  | _ :: _ :: _, harray => exact harray

/-- The element that a word of a lookup table stands for, in a section with the given texts. -/
def Scalar.ofTableWord (texts : Bytes) (word : UInt32) : FieldKind → Except Error Scalar
  | .text => (StringTable.textAt texts word).map .text
  | .f64 => .ok (.f64 (Float.widen word.toBitVec))
  | kind =>
    ofWord (if kind.isSigned then word.toBitVec.signExtend 64 else word.toBitVec.setWidth 64) kind

theorem StringTable.Keeps.of_respects {α : Type} {m : Decode α} {texts : Bytes} {s : RowState}
    (hs : s.strings.Keeps texts) (h : Respects (RowState.Alike texts) m) :
    (m.on s).2.strings.Keeps texts :=
  (h s s ⟨rfl, rfl, hs, hs⟩).2.left

namespace RowContext

variable {c : RowContext} {texts : Bytes} {s t : RowState}

/-- The element of a common-data column for the record with an id: the word that the column has
under the id, or else its default. -/
def commonScalar (c : RowContext) (texts : Bytes) (id : Option UInt32) (index : Nat)
    (kind : FieldKind) : Except Error Scalar := do
  let d ← c.descriptor index
  let own := c.common.bind fun table => id.bind fun id => table.value? index id
  Scalar.ofTableWord texts (own.getD d.defaultValue) kind

theorem on_wordScalar {word : UInt32} {kind : FieldKind} {v : Scalar}
    (hs : s.strings.Keeps texts) (h : (wordScalar word kind).on s = (.ok v, t)) :
    Scalar.ofTableWord texts word kind = .ok v ∧ t.strings.Keeps texts := by
  cases kind with
  | text =>
      obtain ⟨htext, hkept⟩ := hs.on_resolve word
      obtain ⟨text, u, hresolve, h⟩ := on_bind_eq_ok.mp h
      rw [on_focus, htext] at hresolve
      obtain ⟨hfound, rfl⟩ := Prod.mk.inj hresolve
      cases h
      refine ⟨?_, hkept⟩
      rw [Scalar.ofTableWord, hfound]
      rfl
  | f64 =>
      cases h
      exact ⟨rfl, hs⟩
  | f32 =>
      obtain ⟨hword, rfl⟩ := on_lift_eq_ok h
      exact ⟨hword, hs⟩
  | int kind =>
      obtain ⟨hword, rfl⟩ := on_lift_eq_ok h
      exact ⟨hword, hs⟩

theorem on_commonElement {index : Nat} {kind : FieldKind} {id : Option UInt32} {v : Scalar}
    (hs : s.strings.Keeps texts) (h : (c.commonElement index kind id).on s = (.ok v, t)) :
    c.commonScalar texts id index kind = .ok v ∧ t.strings.Keeps texts := by
  obtain ⟨d, u, hlift, h⟩ := on_bind_eq_ok.mp h
  obtain ⟨hd, rfl⟩ := on_lift_eq_ok hlift
  unfold commonScalar
  rw [hd]
  obtain ⟨offset, bits, count, storage⟩ := d
  cases storage with
  | common default chunk => exact on_wordScalar hs h
  | _ => cases h

end RowContext

namespace FieldPlan

variable {c : RowContext} {texts : Bytes} {s t : RowState} {external id : Option UInt32}

/-- What is known of a field before the id of the record is: the elements that are not common
data. -/
def Started (external : Option UInt32) (p : FieldPlan) (elements : Elements) : Prop :=
  match p.source with
  | .indexTable => ∃ entry v, external = some entry ∧
      Scalar.ofWord (entry.toBitVec.setWidth 64) p.kind = .ok v ∧ elements = [some v]
  | .slots slots => List.Forall₂ (fun slot e => e = none ↔ slot.isCommon = true) slots elements

def width (p : FieldPlan) : Nat :=
  match p.source with
  | .indexTable => 1
  | .slots slots => slots.length

theorem length_eq_width {p : FieldPlan} {elements : Elements} (h : p.Started external elements) :
    elements.length = p.width := by
  unfold Started at h
  unfold width
  cases hsource : p.source with
  | indexTable =>
      rw [hsource] at h
      obtain ⟨_, _, _, _, rfl⟩ := h
      rfl
  | slots slots =>
      rw [hsource] at h
      exact h.length_eq.symm

theorem started_of_on_bodyElements {p : FieldPlan} {elements : Elements}
    (h : (p.bodyElements c external).on s = (.ok elements, t)) : p.Started external elements := by
  unfold bodyElements at h
  unfold Started
  cases hsource : p.source with
  | indexTable =>
      rw [hsource] at h
      cases external with
      | none => cases h
      | some entry =>
          obtain ⟨v, u, hv, h⟩ := on_bind_eq_ok.mp h
          cases h
          exact ⟨entry, v, rfl, (on_lift_eq_ok hv).1, rfl⟩
  | slots slots =>
      rw [hsource] at h
      apply forall₂_of_on_mapM _ h
      intro slot e s t he
      cases hcommon : slot.isCommon with
      | true =>
          rw [hcommon] at he
          cases he
          simp
      | false =>
          rw [hcommon] at he
          obtain ⟨v, u, _, he⟩ := on_bind_eq_ok.mp he
          cases he
          simp

/-- The elements of a field: those that were known, and the common data of the record with an
id. -/
structure Filled (c : RowContext) (texts : Bytes) (id : Option UInt32) (p : FieldPlan)
    (elements : Elements) (scalars : List Scalar) : Prop where
  length : scalars.length = elements.length
  known : ∀ (j : Nat) v, elements[j]? = some (some v) → scalars[j]? = some v
  common : ∀ (j : Nat) slot, p.source.slotList[j]? = some slot → slot.isCommon = true →
    ∃ v, scalars[j]? = some v ∧ c.commonScalar texts id slot.descriptor p.kind = .ok v

/-- A field has a slot for each of its elements. -/
def IsRegular (p : FieldPlan) : Prop :=
  match p.source with
  | .indexTable => p.isArray = false
  | .slots slots => slots ≠ [] ∧ p.isArray = decide (1 < slots.length)

theorem filled_cons {kind : FieldKind} {isArray : Bool} {slot : Slot} {slots : List Slot}
    {e : Option Scalar} {elements : Elements} {v : Scalar} {scalars : List Scalar}
    (hknown : ∀ w, e = some w → v = w)
    (hcommon : slot.isCommon = true → c.commonScalar texts id slot.descriptor kind = .ok v)
    (hrest : Filled c texts id ⟨kind, isArray, .slots slots⟩ elements scalars) :
    Filled c texts id ⟨kind, isArray, .slots (slot :: slots)⟩ (e :: elements)
      (v :: scalars) where
  length := congrArg (· + 1) hrest.length
  known := by
    rintro (_ | j) w hw
    · exact congrArg some (hknown w (Option.some.inj hw))
    · exact hrest.known j w hw
  common := by
    rintro (_ | j) other hother hcommonOther
    · cases hother
      exact ⟨v, rfl, hcommon hcommonOther⟩
    · exact hrest.common j other hother hcommonOther

theorem filled_of_indexTable {kind : FieldKind} {isArray : Bool} {v : Scalar} :
    Filled c texts id ⟨kind, isArray, .indexTable⟩ [some v] [v] where
  length := rfl
  known := by
    rintro (_ | j) w hw
    · cases hw
      rfl
    · cases hw
  common := nofun

/-- Elements that need no id are all there. -/
theorem exists_filled_of_started {p : FieldPlan} {elements : Elements}
    (hstarted : p.Started external elements)
    (hcommon : p.source.slotList.any Slot.isCommon = false) :
    ∃ scalars, elements = scalars.map some ∧ Filled c texts id p elements scalars := by
  obtain ⟨kind, isArray, source⟩ := p
  cases source with
  | indexTable =>
      obtain ⟨entry, v, _, _, rfl⟩ := hstarted
      exact ⟨[v], rfl, filled_of_indexTable⟩
  | slots slots =>
      change List.Forall₂ _ slots elements at hstarted
      change slots.any Slot.isCommon = false at hcommon
      induction hstarted with
      | nil => exact ⟨[], rfl, rfl, nofun, nofun⟩
      | @cons slot e slots elements hslot _ ih =>
          rw [List.any_cons, Bool.or_eq_false_iff] at hcommon
          have hstored : slot.isCommon ≠ true := ne_true_of_eq_false hcommon.1
          obtain ⟨scalars, rfl, hfilled⟩ := ih hcommon.2
          cases e with
          | none => exact absurd (hslot.mp rfl) hstored
          | some v =>
              refine ⟨v :: scalars, rfl, ?_⟩
              exact filled_cons (fun w hw => Option.some.inj hw)
                (fun htrue => absurd htrue hstored) hfilled

/-- Filling in a field looks up its common data and leaves the other elements as they are. -/
theorem on_fillElements {p : FieldPlan} {elements filled : Elements}
    (hstarted : p.Started external elements) (hs : s.strings.Keeps texts)
    (h : (fillElements c id p.kind p.source.slotList elements).on s = (.ok filled, t)) :
    t.strings.Keeps texts ∧ ∃ scalars, filled = scalars.map some ∧
      Filled c texts id p elements scalars := by
  obtain ⟨kind, isArray, source⟩ := p
  cases source with
  | indexTable =>
      obtain ⟨entry, v, _, _, rfl⟩ := hstarted
      cases h
      exact ⟨hs, [v], rfl, filled_of_indexTable⟩
  | slots slots =>
      change List.Forall₂ _ slots elements at hstarted
      change (fillElements c id kind slots elements).on s = _ at h
      -- What is missing is just what stands in the common block, so each slot is looked up or left.
      induction hstarted generalizing s t filled with
      | nil =>
          cases h
          exact ⟨hs, [], rfl, rfl, nofun, nofun⟩
      | @cons slot e slots elements hslot _ ih =>
          cases e with
          | none =>
              have hcommon := hslot.mp rfl
              obtain ⟨v, u, hv, h⟩ := on_bind_eq_ok.mp h
              obtain ⟨hv, hu⟩ := RowContext.on_commonElement hs hv
              obtain ⟨rest, w, hrest, h⟩ := on_bind_eq_ok.mp h
              obtain ⟨hkept, scalars, rfl, hfilled⟩ := ih hu hrest
              cases h
              refine ⟨hkept, v :: scalars, rfl, ?_⟩
              exact filled_cons (fun w hw => nomatch hw) (fun _ => hv) hfilled
          | some v =>
              have hcommon : slot.isCommon ≠ true := fun htrue => nomatch hslot.mpr htrue
              obtain ⟨rest, w, hrest, h⟩ := on_bind_eq_ok.mp h
              obtain ⟨hkept, scalars, rfl, hfilled⟩ := ih hs hrest
              cases h
              refine ⟨hkept, v :: scalars, rfl, ?_⟩
              exact filled_cons (fun w hw => Option.some.inj hw) (fun htrue => absurd htrue hcommon)
                hfilled

theorem shapes_of_length {p : FieldPlan} {scalars : List Scalar}
    (hlength : scalars.length = p.width) (hregular : p.IsRegular) : p.Shapes scalars := by
  obtain ⟨kind, isArray, source⟩ := p
  cases source with
  | indexTable =>
      obtain ⟨v, rfl⟩ := List.length_eq_one_iff.mp hlength
      exact ⟨List.cons_ne_nil _ _, hregular⟩
  | slots slots =>
      obtain ⟨hne, harray⟩ := hregular
      refine ⟨?_, hlength ▸ harray⟩
      rintro rfl
      exact hne (List.eq_nil_of_length_eq_zero hlength.symm)

theorem shapes_of_filled {p : FieldPlan} {elements : Elements} {scalars : List Scalar}
    (hstarted : p.Started external elements) (hregular : p.IsRegular)
    (hfilled : Filled c texts id p elements scalars) : p.Shapes scalars :=
  shapes_of_length (hfilled.length.trans (length_eq_width hstarted)) hregular

end FieldPlan

namespace Mapping

variable {c : RowContext} {texts : Bytes} {s t : RowState} {external id : Option UInt32}

def AllFilled (c : RowContext) (texts : Bytes) (id : Option UInt32) (plans : List FieldPlan)
    (body : List Elements) (fields : List (List Scalar)) : Prop :=
  ∀ (i : Nat) p elements, plans[i]? = some p → body[i]? = some elements →
    ∃ scalars, fields[i]? = some scalars ∧ p.Filled c texts id elements scalars

theorem allFilled_cons {p : FieldPlan} {plans : List FieldPlan} {elements : Elements}
    {body : List Elements} {scalars : List Scalar} {fields : List (List Scalar)}
    (hfirst : p.Filled c texts id elements scalars)
    (hrest : AllFilled c texts id plans body fields) :
    AllFilled c texts id (p :: plans) (elements :: body) (scalars :: fields) := by
  rintro (_ | i) q other hq hother
  · cases hq
    cases hother
    exact ⟨scalars, rfl, hfirst⟩
  · exact hrest i q other hq hother

theorem exists_allFilled_of_started {plans : List FieldPlan} {body : List Elements}
    (hstarted : List.Forall₂ (FieldPlan.Started external) plans body)
    (hregular : ∀ p ∈ plans, p.IsRegular)
    (hcommon : (plans.any fun p => p.source.slotList.any Slot.isCommon) = false) :
    ∃ fields, body = (fields.map fun scalars => scalars.map some) ∧
      List.Forall₂ FieldPlan.Shapes plans fields ∧ AllFilled c texts id plans body fields := by
  induction hstarted with
  | nil => exact ⟨[], rfl, List.Forall₂.nil, nofun⟩
  | @cons p elements plans body hfirst _ ih =>
      rw [List.any_cons, Bool.or_eq_false_iff] at hcommon
      obtain ⟨scalars, helements, hfilled⟩ :=
        FieldPlan.exists_filled_of_started hfirst hcommon.1
      obtain ⟨fields, hbody, hshapes, hall⟩ :=
        ih (fun q hq => hregular q (List.mem_cons_of_mem _ hq)) hcommon.2
      have hshape := FieldPlan.shapes_of_filled hfirst (hregular p (List.mem_cons_self ..)) hfilled
      refine ⟨scalars :: fields, ?_, List.Forall₂.cons hshape hshapes, allFilled_cons hfilled hall⟩
      rw [List.map_cons, ← helements, ← hbody]

theorem on_fillFields {plans : List FieldPlan} {body filled : List Elements}
    (hstarted : List.Forall₂ (FieldPlan.Started external) plans body)
    (hregular : ∀ p ∈ plans, p.IsRegular) (hs : s.strings.Keeps texts)
    (h : (fillFields c id plans body).on s = (.ok filled, t)) :
    ∃ fields, filled = (fields.map fun scalars => scalars.map some) ∧
      List.Forall₂ FieldPlan.Shapes plans fields ∧ AllFilled c texts id plans body fields := by
  induction hstarted generalizing s t filled with
  | nil =>
      cases h
      exact ⟨[], rfl, List.Forall₂.nil, nofun⟩
  | @cons p elements plans body hfirst _ ih =>
      obtain ⟨first, u, hfill, h⟩ := on_bind_eq_ok.mp h
      obtain ⟨hu, scalars, rfl, hfilled⟩ := FieldPlan.on_fillElements hfirst hs hfill
      obtain ⟨others, v, hothers, h⟩ := on_bind_eq_ok.mp h
      obtain ⟨fields, rfl, hshapes, hall⟩ :=
        ih (fun q hq => hregular q (List.mem_cons_of_mem _ hq)) hu hothers
      cases h
      have hshape := FieldPlan.shapes_of_filled hfirst (hregular p (List.mem_cons_self ..)) hfilled
      exact ⟨scalars :: fields, rfl, List.Forall₂.cons hshape hshapes, allFilled_cons hfilled hall⟩

/-- The id that the common data of a row is looked up under. -/
def LooksUp (m : Mapping) (c : RowContext) (external : Option UInt32) (body : List Elements)
    (s : RowState) (id : Option UInt32) : Prop :=
  match external with
  | some entry => id = some entry
  | none => ((m.bodyKey c body).on s).1 = .ok id

/-- The values of a row are those of its elements, and all common data has been looked up under one
id. -/
theorem on_values {m : Mapping} {values : List Value} (hregular : ∀ p ∈ m.fields, p.IsRegular)
    (hs : s.strings.Keeps texts) (h : (m.values c external).on s = (.ok values, t)) :
    ∃ body u id fields,
      (m.fields.mapM (FieldPlan.bodyElements c external)).on s = (.ok body, u) ∧
      (m.needsKey = true → m.LooksUp c external body u id) ∧
      values = fields.map Value.ofScalars ∧ AllFilled c texts id m.fields body fields := by
  obtain ⟨body, u, hbody, h⟩ := on_bind_eq_ok.mp h
  have hstarted : List.Forall₂ (FieldPlan.Started external) m.fields body :=
    forall₂_of_on_mapM (fun _ _ _ _ => FieldPlan.started_of_on_bodyElements) hbody
  have hu := hs.of_respects
    (respects_mapM ((c.aligns_alike texts).respects_bodyElements external) m.fields)
  rw [hbody] at hu
  -- However the id is found, the fields are filled in alike once it is.
  have hfilled {id : Option UInt32} {w : RowState} (hid : m.LooksUp c external body u id)
      (hw : w.strings.Keeps texts)
      (h : (do let filled ← fillFields c id m.fields body; liftM (fieldValues m.fields filled) :
        Decode (List Value)).on w = (.ok values, t)) :
      ∃ body u id fields,
        (m.fields.mapM (FieldPlan.bodyElements c external)).on s = (.ok body, u) ∧
        (m.needsKey = true → m.LooksUp c external body u id) ∧
        values = fields.map Value.ofScalars ∧ AllFilled c texts id m.fields body fields := by
    obtain ⟨filled, x, hfill, h⟩ := on_bind_eq_ok.mp h
    obtain ⟨fields, rfl, hshapes, hall⟩ := on_fillFields hstarted hregular hw hfill
    obtain ⟨hvalues, -⟩ := on_lift_eq_ok h
    rw [fieldValues_of_shapes hshapes] at hvalues
    cases hvalues
    exact ⟨body, u, id, fields, hbody, fun _ => hid, rfl, hall⟩
  cases hneeds : m.needsKey with
  | false =>
      rw [hneeds, if_neg Bool.false_ne_true] at h
      obtain ⟨fields, rfl, hshapes, hall⟩ := exists_allFilled_of_started hstarted hregular hneeds
      obtain ⟨hvalues, -⟩ := on_lift_eq_ok h
      rw [fieldValues_of_shapes hshapes] at hvalues
      cases hvalues
      exact ⟨_, u, none, fields, hbody, nofun, rfl, hall⟩
  | true =>
      rw [hneeds, if_pos rfl] at h
      rw [hneeds] at hfilled
      cases external with
      | some entry => exact hfilled rfl hu h
      | none =>
          obtain ⟨id, w, hid, h⟩ := on_bind_eq_ok.mp h
          have hw := hu.of_respects ((c.aligns_alike texts).respects_bodyKey m body)
          rw [hid] at hw
          exact hfilled (congrArg Prod.fst hid) hw h

end Mapping

end ClientTable
