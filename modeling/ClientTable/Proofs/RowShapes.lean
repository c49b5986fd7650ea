import ClientTable.Proofs.KeyFields

namespace ClientTable

open Attempt

/-- A number of elements, all of them of one kind. -/
def Scalar.AreOf (kind : FieldKind) (count : Nat) (scalars : List Scalar) : Prop :=
  scalars.length = count ∧ ∀ v ∈ scalars, v.kind = kind

theorem Scalar.areOf_cons {kind : FieldKind} {count : Nat} {v : Scalar} {scalars : List Scalar}
    (hv : v.kind = kind) (h : AreOf kind count scalars) :
    AreOf kind (count + 1) (v :: scalars) := by
  refine ⟨congrArg Nat.succ h.1, ?_⟩
  rintro w (_ | ⟨_, hw⟩)
  · exact hv
  · exact h.2 w hw

/-- What a record holds for a field: one element of its kind, or an array of as many as it has. -/
def Field.Shows (f : Field) : Value → Prop
  | .scalar v => f.arity = 1 ∧ v.kind = f.kind
  | .array values => 1 < f.arity ∧ values.length = f.arity ∧
      ∀ value ∈ values, ∃ v, value = .scalar v ∧ v.kind = f.kind

theorem Field.shows_ofScalars {f : Field} {scalars : List Scalar}
    (h : Scalar.AreOf f.kind f.arity scalars) : f.Shows (Value.ofScalars scalars) := by
  obtain ⟨hlength, hkinds⟩ := h
  match scalars with
  | [] => exact absurd hlength (Nat.ne_of_lt f.arity_pos)
  | [v] => exact ⟨hlength.symm, hkinds v (List.mem_cons_self ..)⟩
  | v :: w :: rest =>
      refine ⟨?_, (List.length_map _).trans hlength, ?_⟩
      · rw [← hlength, List.length_cons, List.length_cons]
        omega
      · intro value hvalue
        obtain ⟨u, hu, rfl⟩ := List.mem_map.mp hvalue
        exact ⟨u, rfl, hkinds u hu⟩

theorem RowContext.ensures_commonElement (c : RowContext) (index : Nat) (kind : FieldKind)
    (key : Option UInt32) : Ensures (c.commonElement index kind key) fun v => v.kind = kind := by
  apply ensures_bind
  intro d
  cases d.storage with
  | common default chunk => exact ensures_wordScalar _ kind
  | _ => exact ensures_throw _

namespace FieldPlan

variable {c : RowContext} {external key : Option UInt32} {p : FieldPlan}

def Complete (p : FieldPlan) (scalars : List Scalar) : Prop :=
  Scalar.AreOf p.kind p.width scalars

/-- The elements of a field before its common data. -/
structure Begun (external : Option UInt32) (p : FieldPlan) (elements : Elements) : Prop where
  started : p.Started external elements
  kinds : ∀ v, some v ∈ elements → v.kind = p.kind

theorem begun_of_on_bodyElements {elements : Elements} {s t : RowState}
    (h : (p.bodyElements c external).on s = (.ok elements, t)) : p.Begun external elements := by
  refine ⟨started_of_on_bodyElements h, ?_⟩
  obtain ⟨kind, isArray, source⟩ := p
  cases source with
  | indexTable =>
      obtain ⟨_, v, _, hv, rfl⟩ := started_of_on_bodyElements h
      intro w hw
      obtain rfl := Option.some.inj (List.mem_singleton.mp hw)
      exact Scalar.kind_of_ofWord hv
  | slots slots =>
      have hall : List.Forall₂ (fun _ e => ∀ v, e = some v → v.kind = kind) slots elements := by
        refine forall₂_of_on_mapM ?_ h
        intro slot e s t he
        split at he
        · cases he
          exact nofun
        · obtain ⟨v, u, hv, he⟩ := on_bind_eq_ok.mp he
          cases he
          rintro w ⟨⟩
          exact RowContext.ensures_element _ _ _ _ v (congrArg Prod.fst hv)
      intro v hv
      obtain ⟨slot, _, hkind⟩ := exists_of_forall₂_of_mem hall hv
      exact hkind v rfl

theorem exists_complete_of_begun (c : RowContext) {elements : Elements}
    (h : p.Begun external elements)
    (hcommon : p.source.slotList.any Slot.isCommon = false) :
    ∃ scalars, elements = scalars.map some ∧ p.Complete scalars := by
  have hknown : ∃ scalars, elements = scalars.map some ∧ Filled c [] none p elements scalars :=
    exists_filled_of_started h.started hcommon
  obtain ⟨scalars, rfl, _⟩ := hknown
  refine ⟨scalars, rfl, ?_, fun v hv => h.kinds v (List.mem_map_of_mem hv)⟩
  rw [← length_eq_width h.started, List.length_map]

theorem ensures_fillElements {elements : Elements} (h : p.Begun external elements) :
    Ensures (fillElements c key p.kind p.source.slotList elements) fun filled =>
      ∃ scalars, filled = scalars.map some ∧ p.Complete scalars := by
  obtain ⟨hstarted, hkinds⟩ := h
  obtain ⟨kind, isArray, source⟩ := p
  cases source with
  | indexTable =>
      obtain ⟨_, v, _, _, rfl⟩ := hstarted
      apply ensures_pure
      refine ⟨[v], rfl, rfl, fun w hw => ?_⟩
      exact hkinds w (List.mem_map_of_mem hw)
  | slots slots =>
      change List.Forall₂ _ slots elements at hstarted
      change Ensures (fillElements c key kind slots elements) fun filled =>
        ∃ scalars : List Scalar, filled = scalars.map some ∧
          Scalar.AreOf kind slots.length scalars
      induction hstarted with
      | nil => exact ensures_pure ⟨[], rfl, rfl, nofun⟩
      | @cons slot e slots elements _ _ ih =>
          have hrest := ih fun v hv => hkinds v (List.mem_cons_of_mem _ hv)
          cases e with
          | none =>
              refine (RowContext.ensures_commonElement c slot.descriptor kind key).bind ?_
              intro v hv
              refine hrest.bind ?_
              rintro _ ⟨scalars, rfl, hscalars⟩
              exact ensures_pure ⟨v :: scalars, rfl, Scalar.areOf_cons hv hscalars⟩
          | some v =>
              have hv : v.kind = kind := hkinds v (List.mem_cons_self ..)
              refine hrest.bind ?_
              rintro _ ⟨scalars, rfl, hscalars⟩
              exact ensures_pure ⟨v :: scalars, rfl, Scalar.areOf_cons hv hscalars⟩

end FieldPlan

namespace Mapping

variable {c : RowContext} {external : Option UInt32}

theorem exists_complete_of_begun (c : RowContext) {plans : List FieldPlan} {body : List Elements}
    (h : List.Forall₂ (FieldPlan.Begun external) plans body)
    (hcommon : (plans.any fun p => p.source.slotList.any Slot.isCommon) = false) :
    ∃ fields, body = (fields.map fun scalars => scalars.map some) ∧
      List.Forall₂ FieldPlan.Complete plans fields := by
  induction h with
  | nil => exact ⟨[], rfl, List.Forall₂.nil⟩
  | cons hfirst _ ih =>
      rw [List.any_cons, Bool.or_eq_false_iff] at hcommon
      obtain ⟨scalars, rfl, hcomplete⟩ :=
        FieldPlan.exists_complete_of_begun c hfirst hcommon.1
      obtain ⟨fields, rfl, hall⟩ := ih hcommon.2
      exact ⟨scalars :: fields, rfl, List.Forall₂.cons hcomplete hall⟩

theorem ensures_fillFields (c : RowContext) (key : Option UInt32) {plans : List FieldPlan}
    {body : List Elements} (h : List.Forall₂ (FieldPlan.Begun external) plans body) :
    Ensures (fillFields c key plans body) fun filled =>
      ∃ fields, filled = (fields.map fun scalars => scalars.map some) ∧
        List.Forall₂ FieldPlan.Complete plans fields := by
  induction h with
  | nil => exact ensures_pure ⟨[], rfl, List.Forall₂.nil⟩
  | cons hfirst _ ih =>
      refine (FieldPlan.ensures_fillElements hfirst).bind ?_
      rintro _ ⟨scalars, rfl, hcomplete⟩
      refine ih.bind ?_
      rintro _ ⟨fields, rfl, hall⟩
      exact ensures_pure ⟨scalars :: fields, rfl, List.Forall₂.cons hcomplete hall⟩

theorem forall₂_shapes {plans : List FieldPlan} {fields : List (List Scalar)}
    (h : List.Forall₂ FieldPlan.Complete plans fields) (hregular : ∀ p ∈ plans, p.IsRegular) :
    List.Forall₂ FieldPlan.Shapes plans fields := by
  induction h with
  | nil => exact List.Forall₂.nil
  | cons hfirst _ ih =>
      have hshapes := FieldPlan.shapes_of_length hfirst.1 (hregular _ (List.mem_cons_self ..))
      exact List.Forall₂.cons hshapes (ih fun p hp => hregular p (List.mem_cons_of_mem _ hp))

/-- The values of a row are made of one list of elements for each field. -/
theorem ensures_values {m : Mapping} (hregular : ∀ p ∈ m.fields, p.IsRegular) :
    Ensures (m.values c external) fun values =>
      ∃ fields, values = fields.map Value.ofScalars ∧
        List.Forall₂ FieldPlan.Complete m.fields fields := by
  have hvalues {filled : List Elements}
      (h : ∃ fields, filled = (fields.map fun scalars => scalars.map some) ∧
        List.Forall₂ FieldPlan.Complete m.fields fields) :
      Ensures (liftM (fieldValues m.fields filled) : Decode (List Value)) fun values =>
        ∃ fields, values = fields.map Value.ofScalars ∧
          List.Forall₂ FieldPlan.Complete m.fields fields := by
    obtain ⟨fields, rfl, hcomplete⟩ := h
    apply ensures_lift
    intro values hmade
    rw [fieldValues_of_shapes (forall₂_shapes hcomplete hregular)] at hmade
    exact ⟨fields, (Except.ok.inj hmade).symm, hcomplete⟩
  have hbody : Ensures (m.fields.mapM (FieldPlan.bodyElements c external)) fun body =>
      List.Forall₂ (FieldPlan.Begun external) m.fields body := by
    intro s body hbody
    exact forall₂_of_on_mapM (fun _ _ _ _ => FieldPlan.begun_of_on_bodyElements)
      (Prod.ext hbody rfl)
  refine hbody.bind fun body hbegun => ?_
  cases hneeds : m.needsKey with
  | true =>
      rw [if_pos rfl]
      have hfill (key : Option UInt32) := (ensures_fillFields c key hbegun).bind
        fun filled hfilled => hvalues hfilled
      cases external with
      | some entry => exact hfill (some entry)
      | none => exact ensures_bind hfill
  | false =>
      rw [if_neg Bool.false_ne_true]
      exact hvalues (exists_complete_of_begun c hbegun hneeds)

end Mapping

end ClientTable
