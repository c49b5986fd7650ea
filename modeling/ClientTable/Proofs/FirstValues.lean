import ClientTable.Proofs.SchemaPrefix

namespace ClientTable

open Attempt

/-- States of one row from which the key and the common data of its record are looked up alike. -/
structure RowState.Abreast (c : RowContext) (bytes : Bytes) (s t : RowState) : Prop where
  bits : c.isVariable = false → s.bits = t.bits
  left : s.strings.Keeps bytes
  right : t.strings.Keeps bytes

open RowState (Abreast)

theorem RowState.textual_abreast (c : RowContext) (bytes : Bytes) :
    Textual bytes (Abreast c bytes) where
  keeps h := ⟨h.left, h.right⟩
  put h hp hq := ⟨h.bits, hp, hq⟩

namespace RowContext

variable {c : RowContext} {bytes : Bytes}

theorem respects_inlineWord_of_fixed (hfixed : c.isVariable = false) (d : Descriptor)
    (element : Nat) (signed : Bool) :
    Respects (Abreast c bytes) (c.inlineWord d element signed) := by
  unfold inlineWord
  rw [hfixed, if_neg Bool.false_ne_true]
  refine respects_get_bind ?_ fun s => respects_lift _
  intro s t h
  rw [h.bits hfixed]

theorem element_eq {descriptors : List Descriptor} {index : Nat}
    (h : descriptors[index]? = c.descriptors[index]?) (element : Nat) (kind : FieldKind) :
    RowContext.element { c with descriptors } index element kind =
      c.element index element kind := by
  have hdescriptor : RowContext.descriptor { c with descriptors } index = c.descriptor index := by
    unfold descriptor
    rw [h]
  unfold RowContext.element
  rw [hdescriptor]
  rfl

end RowContext

namespace FieldPlan

variable {c : RowContext} {descriptors : List Descriptor}

theorem bodyElements_eq {p : FieldPlan}
    (h : ∀ slot ∈ p.source.slotList, descriptors[slot.descriptor]? =
      c.descriptors[slot.descriptor]?) (external : Option UInt32) :
    p.bodyElements { c with descriptors } external = p.bodyElements c external := by
  unfold bodyElements
  cases hsource : p.source with
  | indexTable => rfl
  | slots slots =>
      rw [hsource] at h
      refine mapM_congr fun slot hslot => ?_
      rw [RowContext.element_eq (h slot hslot)]

end FieldPlan

namespace Mapping

variable {c : RowContext} {key : Option UInt32} {plans others : List FieldPlan}
  {body more : List Elements} {s t : RowState}

theorem exists_of_on_fillFields_append (hlength : body.length = plans.length)
    {filled : List Elements}
    (h : (fillFields c key (plans ++ others) (body ++ more)).on s = (.ok filled, t)) :
    ∃ first rest u, (fillFields c key plans body).on s = (.ok first, u) ∧
      first.length = plans.length ∧ filled = first ++ rest := by
  induction plans generalizing body filled s with
  | nil =>
      obtain rfl := List.eq_nil_of_length_eq_zero hlength
      exact ⟨[], filled, s, rfl, rfl, rfl⟩
  | cons p plans ih =>
      obtain ⟨elements, body, rfl⟩ := List.exists_cons_of_length_eq_add_one hlength
      obtain ⟨first, u, hfirst, h⟩ := on_bind_eq_ok.mp h
      obtain ⟨rest, v, hrest, h⟩ := on_bind_eq_ok.mp h
      cases h
      obtain ⟨front, back, w, hfront, hcount, rfl⟩ := ih (Nat.succ_inj.mp hlength) hrest
      refine ⟨first :: front, back, w, ?_, congrArg Nat.succ hcount, rfl⟩
      exact on_bind_eq_ok.mpr ⟨first, u, hfirst, on_bind_eq_ok.mpr ⟨front, w, hfront, rfl⟩⟩

theorem fieldValues_take {filled rest : List Elements} (hlength : filled.length = plans.length)
    {values : List Value} (h : fieldValues (plans ++ others) (filled ++ rest) = .ok values) :
    fieldValues plans filled = .ok (values.take plans.length) := by
  induction plans generalizing filled values with
  | nil =>
      obtain rfl := List.eq_nil_of_length_eq_zero hlength
      rfl
  | cons p plans ih =>
      obtain ⟨elements, filled, rfl⟩ := List.exists_cons_of_length_eq_add_one hlength
      obtain ⟨first, hfirst, h⟩ := bind_eq_ok.mp h
      obtain ⟨values, hvalues, h⟩ := bind_eq_ok.mp h
      cases h
      rw [fieldValues, hfirst, ih (Nat.succ_inj.mp hlength) hvalues]
      rfl

theorem gives_fillFields_of_started {I : RowState → Prop} {external : Option UInt32}
    (hstarted : List.Forall₂ (FieldPlan.Started external) plans body)
    (hcommon : (plans.any fun p => p.source.slotList.any Slot.isCommon) = false) :
    Gives I (fillFields c key plans body) body := by
  induction hstarted with
  | nil => exact gives_pure []
  | @cons p elements plans body hfirst _ ih =>
      rw [List.any_cons, Bool.or_eq_false_iff] at hcommon
      obtain ⟨scalars, rfl, _⟩ : ∃ scalars, elements = scalars.map some ∧
          p.Filled c [] none elements scalars :=
        FieldPlan.exists_filled_of_started hfirst hcommon.1
      exact (FieldPlan.gives_fillElements_some _ _ _).bind ((ih hcommon.2).bind (gives_pure _))

variable {descriptors : List Descriptor} {m wide : Mapping} {external : Option UInt32}
  {texts : Bytes} {values : List Value}

theorem Shortened.needsKey (hm : Shortened descriptors c.descriptors m wide)
    (hneeds : m.needsKey = true) : wide.needsKey = true := by
  obtain ⟨p, hp, hcommon⟩ := List.any_eq_true.mp hneeds
  exact List.any_eq_true.mpr ⟨p, hm.fields.subset hp, hcommon⟩

theorem Shortened.bodyKey_eq (hm : Shortened descriptors c.descriptors m wide)
    (hlength : body.length = m.fields.length) (hneeds : m.needsKey = true) :
    m.bodyKey { c with descriptors } body = wide.bodyKey c (body ++ more) := by
  obtain ⟨rfl, hkey⟩ := hm.sameKey hneeds
  obtain ⟨position, hposition, hinside⟩ := hm.mapped
  have hfield := hm.keyField
  rw [hposition] at hfield
  unfold bodyKey
  rw [hkey, hposition, ← hfield, Option.bind_some, Option.bind_some,
    List.getElem?_append_left (hlength.symm ▸ hinside)]

/-- How the id of a record is found when common data is needed. -/
def idStep (m : Mapping) (c : RowContext) (external : Option UInt32) (body : List Elements) :
    Decode (Option UInt32) :=
  match external with
  | some key => pure (some key)
  | none => m.bodyKey c body

theorem respects_idStep (m : Mapping) (external : Option UInt32) (body : List Elements) :
    Respects (Abreast c texts) (m.idStep c external body) := by
  cases external with
  | some key => exact respects_pure _
  | none =>
      exact m.respects_bodyKey (fun hfixed d =>
        RowContext.respects_inlineWord_of_fixed hfixed d 0 false) body

/-- The elements of all fields, once those that stand in the row have been read. -/
def allElements (m : Mapping) (c : RowContext) (external : Option UInt32) (body : List Elements) :
    Decode (List Elements) :=
  if m.needsKey then m.idStep c external body >>= fun key => fillFields c key m.fields body
  else pure body

theorem values_eq (m : Mapping) (c : RowContext) (external : Option UInt32) :
    m.values c external = (do
      let body ← m.fields.mapM (FieldPlan.bodyElements c external)
      let elements ← m.allElements c external body
      fieldValues m.fields elements) := by
  unfold values allElements
  cases m.needsKey with
  | false => rfl
  | true => cases external <;> simp only [if_pos, idStep, pure_bind, bind_assoc]

/-- Common data of the first fields is filled in as it is with the fields behind them. -/
theorem Shortened.on_filled (hm : Shortened descriptors c.descriptors m wide)
    (hneeds : m.needsKey = true) (hlength : body.length = m.fields.length)
    (hst : Abreast c texts s t) {all : List Elements} {after : RowState}
    (h : (wide.idStep c external (body ++ more) >>= fun key =>
      fillFields c key wide.fields (body ++ more)).on s = (.ok all, after)) :
    ∃ first rest u, all = first ++ rest ∧ first.length = m.fields.length ∧
      (m.idStep { c with descriptors } external body >>= fun key =>
        fillFields { c with descriptors } key m.fields body).on t = (.ok first, u) := by
  obtain ⟨key, s', hkey, h⟩ := on_bind_eq_ok.mp h
  obtain ⟨t', hkey, hst⟩ := (respects_idStep wide external (body ++ more)).on_eq_ok hst hkey
  obtain ⟨others, hothers⟩ := hm.fields
  rw [← hothers] at h
  obtain ⟨first, rest, v, hfirst, hcount, rfl⟩ := exists_of_on_fillFields_append hlength h
  have htexts := Decode.respects_string (RowState.textual_abreast c texts)
  obtain ⟨u, hfirst, _⟩ := (respects_fillFields c htexts key m.fields body).on_eq_ok hst hfirst
  have hstep : m.idStep { c with descriptors } external body =
      wide.idStep c external (body ++ more) := by
    cases external with
    | some key => rfl
    | none => exact hm.bodyKey_eq hlength hneeds
  obtain ⟨rfl, _⟩ := hm.sameKey hneeds
  refine ⟨first, rest, u, rfl, hcount, ?_⟩
  rw [hstep]
  exact on_bind_eq_ok.mpr ⟨key, t', hkey, hfirst⟩

/-- Without common data the elements of the first fields stay as they have been read. -/
theorem Shortened.eq_of_on_allElements (hm : Shortened descriptors c.descriptors m wide)
    (hneeds : m.needsKey = false)
    (hstarted : List.Forall₂ (FieldPlan.Started external) m.fields body)
    {all : List Elements} {after : RowState}
    (h : (wide.allElements c external (body ++ more)).on s = (.ok all, after)) :
    ∃ rest, all = body ++ rest := by
  unfold allElements at h
  split at h
  · obtain ⟨others, hothers⟩ := hm.fields
    obtain ⟨key, s', _, h⟩ := on_bind_eq_ok.mp h
    rw [← hothers] at h
    obtain ⟨first, rest, v, hfirst, _, rfl⟩ :=
      exists_of_on_fillFields_append hstarted.length_eq.symm h
    have hgives : Gives (fun _ => True) (fillFields c key m.fields body) body :=
      gives_fillFields_of_started hstarted hneeds
    have hsame := (hgives s' trivial).1
    rw [hfirst] at hsame
    cases hsame
    exact ⟨rest, rfl⟩
  · cases h
    exact ⟨more, rfl⟩

theorem Shortened.on_allElements (hm : Shortened descriptors c.descriptors m wide)
    (hstarted : List.Forall₂ (FieldPlan.Started external) m.fields body)
    (hst : Abreast c texts s t) {all : List Elements} {after : RowState}
    (h : (wide.allElements c external (body ++ more)).on s = (.ok all, after)) :
    ∃ first rest u, all = first ++ rest ∧ first.length = m.fields.length ∧
      (m.allElements { c with descriptors } external body).on t = (.ok first, u) := by
  have hlength : body.length = m.fields.length := hstarted.length_eq.symm
  cases hneeds : m.needsKey with
  | false =>
      obtain ⟨rest, rfl⟩ := hm.eq_of_on_allElements hneeds hstarted h
      refine ⟨body, rest, t, rfl, hlength, ?_⟩
      rw [allElements, hneeds]
      rfl
  | true =>
      rw [allElements, if_pos (hm.needsKey hneeds)] at h
      rw [allElements, if_pos hneeds]
      exact hm.on_filled hneeds hlength hst h

/-- The values of the first fields come out as they do with the fields behind them. -/
theorem Shortened.on_values (hm : Shortened descriptors c.descriptors m wide)
    (hs : s.strings.Keeps texts) (h : (wide.values c external).on s = (.ok values, t)) :
    ∃ u, (m.values { c with descriptors } external).on s =
      (.ok (values.take m.fields.length), u) := by
  obtain ⟨others, hothers⟩ := hm.fields
  rw [values_eq] at h ⊢
  obtain ⟨all, v, hall, h⟩ := on_bind_eq_ok.mp h
  rw [← hothers, List.mapM_append] at hall
  obtain ⟨body, u, hbody, hall⟩ := on_bind_eq_ok.mp hall
  obtain ⟨more, w, hmore, hall⟩ := on_bind_eq_ok.mp hall
  cases hall
  have hstarted : List.Forall₂ (FieldPlan.Started external) m.fields body :=
    forall₂_of_on_mapM (fun _ _ _ _ => FieldPlan.started_of_on_bodyElements) hbody
  have hread : (m.fields.mapM (FieldPlan.bodyElements { c with descriptors } external)).on s =
      (.ok body, u) := by
    rw [← hbody]
    exact congrArg (fun reads => reads.on s) (mapM_congr fun p hp =>
      FieldPlan.bodyElements_eq (hm.lookups p hp) external)
  -- The fields behind the first ones are read after them and leave what these look up as it is.
  have habreast : Abreast c texts v u := by
    have haligns := c.aligns_alike texts
    have hu := hs.of_respects (respects_mapM (haligns.respects_bodyElements external) m.fields)
    rw [hbody] at hu
    have hv := hu.of_respects (respects_mapM (haligns.respects_bodyElements external) others)
    rw [hmore] at hv
    refine ⟨fun hfixed => ?_, hv, hu⟩
    have hbits := leaves_mapM (FieldPlan.leaves_bodyElements hfixed external) others u
    rw [hmore] at hbits
    exact hbits
  obtain ⟨filled, x, hfilled, h⟩ := on_bind_eq_ok.mp h
  obtain ⟨hvalues, rfl⟩ := on_lift_eq_ok h
  rw [← hothers] at hvalues
  obtain ⟨front, rest, y, rfl, hcount, hfront⟩ := hm.on_allElements hstarted habreast hfilled
  refine ⟨y, on_bind_eq_ok.mpr ⟨body, u, hread, on_bind_eq_ok.mpr ⟨front, y, hfront, ?_⟩⟩⟩
  rw [fieldValues_take hcount hvalues]
  rfl

end Mapping

end ClientTable
