import ClientTable.Proofs.Assignment
import ClientTable.Proofs.Attempt
import ClientTable.Row.Values

/-!
The values of a row follow from what its slots hold. It is enough to know for each slot what the
element in the row is, or the common-data element under the key of the row.
-/

namespace ClientTable

open Attempt

theorem forall₂_range'_map {α β γ : Type} {R : α → β → Prop} {f : Nat → α} {g : γ → β}
    {first count : Nat} {items : List γ} (hlength : items.length = count)
    (h : ∀ i a, items[i]? = some a → R (f (first + i)) (g a)) :
    List.Forall₂ R ((List.range' first count).map f) (items.map g) := by
  subst hlength
  induction items generalizing first with
  | nil => exact List.Forall₂.nil
  | cons a items ih =>
      refine List.Forall₂.cons (h 0 a rfl) (ih fun i b hb => ?_)
      have hnext := h (i + 1) b hb
      rwa [Nat.add_comm i 1, ← Nat.add_assoc] at hnext

theorem forall₂_zipIdx_map {α β γ δ : Type} {R : α → β → Prop} {S : δ → γ → Prop}
    {f : δ × Nat → α} {g : γ → β} {first : Nat} {slots : List δ} {items : List γ}
    (hrelated : List.Forall₂ S slots items)
    (h : ∀ i slot a, S slot a → items[i]? = some a → R (f (slot, first + i)) (g a)) :
    List.Forall₂ R ((slots.zipIdx first).map f) (items.map g) := by
  induction hrelated generalizing first with
  | nil => exact List.Forall₂.nil
  | @cons slot a slots items hfirst _ ih =>
      refine List.Forall₂.cons (h 0 slot a hfirst rfl) (ih fun i slot b hslot hb => ?_)
      have hnext := h (i + 1) slot b hslot hb
      rwa [Nat.add_comm i 1, ← Nat.add_assoc] at hnext

/-- The value that elements make up: one element is itself, more of them are an array. -/
def Value.ofScalars : List Scalar → Value
  | [s] => .scalar s
  | scalars => .array (scalars.map .scalar)

variable {I : RowState → Prop} {c : RowContext} {external key : Option UInt32}

def Slot.Holds (I : RowState → Prop) (c : RowContext) (key : Option UInt32) (kind : FieldKind)
    (slot : Slot) (s : Scalar) : Prop :=
  if slot.isCommon then Gives I (c.commonElement slot.descriptor kind key) s
  else Gives I (c.element slot.descriptor slot.element kind) s

namespace FieldPlan

/-- The elements of a field, whose key comes from the index table if it is fed from there. -/
def Holds (I : RowState → Prop) (c : RowContext) (external key : Option UInt32) (p : FieldPlan)
    (scalars : List Scalar) : Prop :=
  match p.source with
  | .indexTable => ∃ word s, external = some word ∧
      Scalar.ofWord (word.toBitVec.setWidth 64) p.kind = .ok s ∧ scalars = [s]
  | .slots slots => List.Forall₂ (Slot.Holds I c key p.kind) slots scalars

/-- The elements that are known before the key is. -/
def known (p : FieldPlan) (scalars : List Scalar) : Elements :=
  match p.source with
  | .indexTable => scalars.map some
  | .slots slots =>
    List.zipWith (fun slot s => if slot.isCommon then none else some s) slots scalars

theorem gives_bodyElements {p : FieldPlan} {scalars : List Scalar}
    (h : p.Holds I c external key scalars) :
    Gives I (p.bodyElements c external) (p.known scalars) := by
  obtain ⟨kind, isArray, source⟩ := p
  cases source with
  | indexTable =>
      obtain ⟨word, s, rfl, hword, rfl⟩ := h
      exact (gives_lift hword).bind (gives_pure _)
  | slots slots =>
      change List.Forall₂ _ slots scalars at h
      change Gives I (slots.mapM _) (List.zipWith _ slots scalars)
      refine gives_mapM ?_
      induction h with
      | nil => exact List.Forall₂.nil
      | @cons slot s slots scalars hslot _ ih =>
          refine List.Forall₂.cons ?_ ih
          unfold Slot.Holds at hslot
          dsimp only
          cases hcommon : slot.isCommon with
          | true => exact gives_pure none
          | false =>
              rw [hcommon] at hslot
              exact Gives.bind hslot (gives_pure _)

theorem gives_fillElements_some (slots : List Slot) (kind : FieldKind) (scalars : List Scalar) :
    Gives I (fillElements c key kind slots (scalars.map some)) (scalars.map some) := by
  induction scalars generalizing slots with
  | nil => cases slots <;> exact gives_pure _
  | cons s scalars ih =>
      cases slots with
      | nil => exact gives_pure _
      | cons slot slots => exact (ih slots).bind (gives_pure _)

theorem gives_fillElements {p : FieldPlan} {scalars : List Scalar}
    (h : p.Holds I c external key scalars) :
    Gives I (fillElements c key p.kind p.source.slotList (p.known scalars))
      (scalars.map some) := by
  obtain ⟨kind, isArray, source⟩ := p
  cases source with
  | indexTable => exact gives_fillElements_some [] kind scalars
  | slots slots =>
      change List.Forall₂ _ slots scalars at h
      change Gives I (fillElements c key kind slots (List.zipWith _ slots scalars)) _
      induction h with
      | nil => exact gives_pure _
      | @cons slot s slots scalars hslot _ ih =>
          rw [List.zipWith_cons_cons]
          unfold Slot.Holds at hslot
          cases hcommon : slot.isCommon with
          | true =>
              rw [hcommon] at hslot
              exact Gives.bind hslot (ih.bind (gives_pure _))
          | false => exact ih.bind (gives_pure _)

theorem known_eq {p : FieldPlan} {scalars : List Scalar} (h : p.Holds I c external key scalars)
    (hcommon : p.source.slotList.any Slot.isCommon = false) :
    p.known scalars = scalars.map some := by
  obtain ⟨kind, isArray, source⟩ := p
  cases source with
  | indexTable => rfl
  | slots slots =>
      change List.Forall₂ _ slots scalars at h
      change slots.any Slot.isCommon = false at hcommon
      change List.zipWith _ slots scalars = _
      induction h with
      | nil => rfl
      | @cons slot s slots scalars _ _ ih =>
          rw [List.any_cons, Bool.or_eq_false_iff] at hcommon
          rw [List.zipWith_cons_cons, hcommon.1, ih hcommon.2]
          rfl

/-- A field is an array if it has more than one element. -/
def Shapes (p : FieldPlan) (scalars : List Scalar) : Prop :=
  scalars ≠ [] ∧ p.isArray = decide (1 < scalars.length)

theorem value_of_shapes {p : FieldPlan} {scalars : List Scalar} (h : p.Shapes scalars) :
    p.value (scalars.map some) = .ok (Value.ofScalars scalars) := by
  obtain ⟨hne, harray⟩ := h
  unfold value
  rw [List.filterMap_map, Function.id_comp, List.filterMap_some, harray]
  match scalars with
  | [] => exact absurd rfl hne
  | [s] => rfl
  | s :: t :: rest => rfl

end FieldPlan

namespace Mapping

theorem gives_bodyFields {plans : List FieldPlan} {fields : List (List Scalar)}
    (h : List.Forall₂ (FieldPlan.Holds I c external key) plans fields) :
    Gives I (plans.mapM (FieldPlan.bodyElements c external))
      (List.zipWith FieldPlan.known plans fields) := by
  refine gives_mapM ?_
  induction h with
  | nil => exact List.Forall₂.nil
  | cons hfirst _ ih => exact List.Forall₂.cons (FieldPlan.gives_bodyElements hfirst) ih

theorem zipWith_known_eq {plans : List FieldPlan} {fields : List (List Scalar)}
    (h : List.Forall₂ (FieldPlan.Holds I c external key) plans fields)
    (hcommon : (plans.any fun p => p.source.slotList.any Slot.isCommon) = false) :
    List.zipWith FieldPlan.known plans fields = fields.map fun scalars => scalars.map some := by
  induction h with
  | nil => rfl
  | cons hfirst _ ih =>
      rw [List.any_cons, Bool.or_eq_false_iff] at hcommon
      rw [List.zipWith_cons_cons, FieldPlan.known_eq hfirst hcommon.1, ih hcommon.2,
        List.map_cons]

theorem gives_fillFields {plans : List FieldPlan} {fields : List (List Scalar)}
    (h : List.Forall₂ (FieldPlan.Holds I c external key) plans fields) :
    Gives I (fillFields c key plans (List.zipWith FieldPlan.known plans fields))
      (fields.map fun scalars => scalars.map some) := by
  induction h with
  | nil => exact gives_pure []
  | cons hfirst _ ih =>
      exact (FieldPlan.gives_fillElements hfirst).bind (ih.bind (gives_pure _))

theorem fieldValues_of_shapes {plans : List FieldPlan} {fields : List (List Scalar)}
    (h : List.Forall₂ FieldPlan.Shapes plans fields) :
    fieldValues plans (fields.map fun scalars => scalars.map some) =
      .ok (fields.map Value.ofScalars) := by
  induction h with
  | nil => rfl
  | cons hfirst _ ih =>
      rw [List.map_cons, fieldValues, FieldPlan.value_of_shapes hfirst, ih]
      rfl

theorem shapes_of_isSingle {plans : List FieldPlan} {scalars : List Scalar}
    (hlength : plans.length = scalars.length) (h : ∀ p ∈ plans, p.IsSingle) :
    List.Forall₂ FieldPlan.Shapes plans (scalars.map fun s => [s]) := by
  induction plans generalizing scalars with
  | nil =>
      rw [List.eq_nil_of_length_eq_zero hlength.symm]
      exact List.Forall₂.nil
  | cons p plans ih =>
      obtain ⟨s, scalars, rfl⟩ := List.exists_cons_of_length_eq_add_one hlength.symm
      apply List.Forall₂.cons
      · exact ⟨List.cons_ne_nil _ _, (h p (List.mem_cons_self ..)).1⟩
      · apply ih (Nat.succ_inj.mp hlength)
        exact fun other hother => h other (List.mem_cons_of_mem _ hother)

/-- The key is the one of the index table, or else the one that the row gives. -/
def KeyIs (I : RowState → Prop) (m : Mapping) (c : RowContext) (external key : Option UInt32)
    (fields : List (List Scalar)) : Prop :=
  match external with
  | some word => key = some word
  | none => Gives I (m.bodyKey c (List.zipWith FieldPlan.known m.fields fields)) key

theorem gives_values {m : Mapping} {fields : List (List Scalar)}
    (hfields : List.Forall₂ (FieldPlan.Holds I c external key) m.fields fields)
    (hshapes : List.Forall₂ FieldPlan.Shapes m.fields fields)
    (hkey : m.needsKey = true → KeyIs I m c external key fields) :
    Gives I (m.values c external) (fields.map Value.ofScalars) := by
  refine (gives_bodyFields hfields).bind ?_
  cases hneeds : m.needsKey with
  | true =>
      rw [if_pos rfl]
      have hfilled : Gives I (fillFields c key m.fields
          (List.zipWith FieldPlan.known m.fields fields) >>= fun fields =>
            liftM (fieldValues m.fields fields)) (fields.map Value.ofScalars) :=
        (gives_fillFields hfields).bind (gives_lift (fieldValues_of_shapes hshapes))
      have hkey := hkey hneeds
      unfold KeyIs at hkey
      cases external with
      | some word =>
          subst hkey
          exact (gives_pure _).bind hfilled
      | none => exact hkey.bind hfilled
  | false =>
      rw [if_neg Bool.false_ne_true]
      refine gives_lift ?_
      rw [zipWith_known_eq hfields hneeds]
      exact fieldValues_of_shapes hshapes

theorem gives_values_of_not_needsKey {m : Mapping} {fields : List (List Scalar)}
    (hfields : List.Forall₂ (FieldPlan.Holds I c external none) m.fields fields)
    (hshapes : List.Forall₂ FieldPlan.Shapes m.fields fields) (hneeds : m.needsKey = false) :
    Gives I (m.values c external) (fields.map Value.ofScalars) := by
  apply gives_values hfields hshapes
  intro hkey
  rw [hneeds] at hkey
  cases hkey

theorem gives_bodyKey {m : Mapping} {fields : List Elements} {position : Nat} {s : Scalar}
    {rest : Elements} {word : UInt32} (hfield : m.keyField? = some position)
    (helements : fields[position]? = some (some s :: rest)) (hword : s.toWord? = some word) :
    Gives I (m.bodyKey c fields) (some word) := by
  unfold bodyKey
  rw [hfield, Option.bind_some, helements]
  simp only [Option.getD_some, List.head?_cons, Option.join_some, Option.bind_some, hword]
  exact gives_pure _

end Mapping

end ClientTable
