import ClientTable.Proofs.Assignment
import ClientTable.Proofs.ColumnElements

namespace ClientTable

open Attempt

/-- A field of the caller's records, and the column that it is stored in. -/
structure StoredField where
  name : String
  kind : IntKind
  column : Column
  valid : column.Valid
  suits : column.Suits kind

namespace StoredField

theorem arity_bounds (f : StoredField) : 0 < f.column.arity ∧ f.column.arity < wordLimit := by
  have hvalid := f.valid
  cases hcolumn : f.column with
  | plain width arity =>
      rw [hcolumn] at hvalid
      exact hvalid.2
  | palletArray width arity tuples =>
      rw [hcolumn] at hvalid
      exact hvalid.2.1
  | _ => exact ⟨Nat.one_pos, (by decide : 1 < wordLimit)⟩

def toField (f : StoredField) : Field :=
  ⟨f.name, .int f.kind, f.column.arity, f.arity_bounds.1, f.arity_bounds.2⟩

def Admits (f : StoredField) (cell : Cell) : Prop :=
  f.column.Admits f.kind cell

instance (f : StoredField) : DecidablePred f.Admits :=
  fun cell => inferInstanceAs (Decidable (f.column.Admits f.kind cell))

/-- What a cell stands for, in the record with the given key. -/
def scalars (key : UInt32) (f : StoredField) (cell : Cell) : List Scalar :=
  f.column.scalars f.kind key cell

def columns (fields : List StoredField) : List Column :=
  fields.map column

def rowFields (fields : List StoredField) (row : List Cell) : List BitField :=
  (List.zipWith (fun f cell => f.column.fields cell) fields row).flatten

theorem widthOf_rowFields {fields : List StoredField} {row : List Cell}
    (h : List.Forall₂ Admits fields row) :
    BitField.widthOf (rowFields fields row) = Column.recordWidthOf (columns fields) := by
  induction h with
  | nil => rfl
  | @cons f cell fields row hfirst _ ih =>
      change BitField.widthOf (f.column.fields cell ++ rowFields fields row) = _
      rw [BitField.widthOf_append, Column.widthOf_fields hfirst, ih]
      rfl

end StoredField

namespace Column

/-- All columns are the stored fields from `index` on. -/
def AllPlaced (c : RowContext) : (index offset : Nat) → ChunkOffsets → List Column → Prop
  | _, _, _, [] => True
  | index, offset, offsets, column :: columns =>
    column.PlacedIn c index offset offsets ∧
      AllPlaced c (index + 1) (offset + column.recordWidth) (column.next offsets) columns

/-- Columns are placed where their descriptors are if the blocks hold what was written for them. -/
theorem allPlaced_of_blocks {c : RowContext} {columns : List Column} {others : List Descriptor}
    {index offset : Nat} {offsets : ChunkOffsets}
    (hdescriptors : c.descriptors.drop index = descriptors offset offsets columns ++ others)
    (hpallet : palletBlock columns ≠ [] → ∃ t, c.pallet = some t ∧
      palletBlock columns <+: t.bytes.drop offsets.pallet)
    (hcommon : ∀ i column, columns[i]? = some column → ∀ key,
      (c.common.bind fun t => t.value? (index + i) key) = column.commonValue key) :
    AllPlaced c index offset offsets columns := by
  -- The chunk of each column stands at the front of what is left of the block.
  induction columns generalizing index offset offsets with
  | nil => trivial
  | cons column columns ih =>
      have hblock : palletBlock (column :: columns) =
          column.palletBytes ++ palletBlock columns := rfl
      refine ⟨⟨?_, ?_, ?_⟩, ih ?_ ?_ ?_⟩
      · rw [← List.head?_drop, hdescriptors]
        rfl
      · intro hne
        obtain ⟨t, ht, hprefix⟩ := hpallet (by
          rw [hblock]
          exact List.append_ne_nil_of_left_ne_nil hne _)
        exact ⟨t, ht, (List.prefix_append ..).trans (hblock ▸ hprefix)⟩
      · exact hcommon 0 column rfl
      · rw [← List.tail_drop, hdescriptors]
        rfl
      · intro hne
        obtain ⟨t, ht, behind, hbehind⟩ := hpallet (by
          rw [hblock]
          exact List.append_ne_nil_of_right_ne_nil _ hne)
        refine ⟨t, ht, behind, ?_⟩
        change _ = t.bytes.drop (offsets.pallet + column.palletBytes.length)
        rw [← List.drop_drop, ← hbehind, hblock, List.append_assoc, List.drop_left]
      · intro i other hother key
        have hvalue := hcommon (i + 1) other hother key
        rwa [Nat.add_comm i 1, ← Nat.add_assoc] at hvalue

end Column

namespace StoredField

variable {c : RowContext} {data texts : Bytes} {key : UInt32}

theorem fits_descriptors (fields : List StoredField) (offset : Nat) (offsets : ChunkOffsets) :
    List.Forall₂ Mapping.Fits (fields.map toField)
      (Column.descriptors offset offsets (columns fields)) := by
  induction fields generalizing offset offsets with
  | nil => exact List.Forall₂.nil
  | cons f fields ih => exact List.Forall₂.cons rfl (ih _ _)

theorem holds_plans (hfixed : c.isVariable = false) {fields : List StoredField}
    {row : List Cell} (hrow : List.Forall₂ Admits fields row) {index offset : Nat}
    {offsets : ChunkOffsets} (hfits : Column.AllFit offset offsets (columns fields))
    (hplaced : Column.AllPlaced c index offset offsets (columns fields))
    (hstored : BitField.AllStored data offset (rowFields fields row)) :
    List.Forall₂ (FieldPlan.Holds (RowState.Sound c data texts) c none (some key))
      (Mapping.plansFrom index (fields.map toField)
        (Column.descriptors offset offsets (columns fields)))
      (List.zipWith (scalars key) fields row) := by
  induction hrow generalizing index offset offsets with
  | nil => exact List.Forall₂.nil
  | @cons f cell fields row hfirst _ ih =>
      obtain ⟨hfit, hfits⟩ := hfits
      obtain ⟨hplace, hplaced⟩ := hplaced
      obtain ⟨hcell, hothers⟩ := BitField.allStored_append.mp hstored
      rw [Column.widthOf_fields hfirst] at hothers
      refine List.Forall₂.cons ?_ (ih hfits hplaced hothers)
      exact Column.holds_slots hfixed hplace f.valid hfit f.suits hfirst hcell key

theorem shapes_plans {fields : List StoredField} {row : List Cell}
    (hrow : List.Forall₂ Admits fields row) (index offset : Nat) (offsets : ChunkOffsets) :
    List.Forall₂ FieldPlan.Shapes
      (Mapping.plansFrom index (fields.map toField)
        (Column.descriptors offset offsets (columns fields)))
      (List.zipWith (scalars key) fields row) := by
  induction hrow generalizing index offset offsets with
  | nil => exact List.Forall₂.nil
  | @cons f cell fields row hfirst _ ih =>
      have hlength : (f.scalars key cell).length = f.column.arity :=
        Column.length_scalars hfirst key
      refine List.Forall₂.cons ⟨?_, ?_⟩ (ih _ _ _)
      · intro hnil
        rw [hnil] at hlength
        have hpositive := f.arity_bounds.1
        rw [← hlength] at hpositive
        exact Nat.lt_irrefl 0 hpositive
      · rw [hlength]
        rfl

/-- A field that can hold the keys of records: one number that is never negative. -/
def HoldsKeys (f : StoredField) : Prop :=
  f.kind.signed = false ∧
    ∃ width, f.column = .plain width 1 ∨ f.column = .immediate width false

/-- The key of a row, which is the number in its first cell. -/
def rowKey : List Cell → UInt32
  | .numbers (n :: _) :: _ => UInt32.ofNat n.toNat
  | _ => 0

theorem exists_number {f : StoredField} (hkeys : f.HoldsKeys) {cell : Cell} (h : f.Admits cell) :
    ∃ n, cell = .numbers [n] ∧ 0 ≤ n ∧ n < 2 ^ f.kind.bits := by
  obtain ⟨hunsigned, width, hcolumn⟩ := hkeys
  have hsuits := f.suits
  unfold Admits at h
  have hnumber : ∃ n, cell = .numbers [n] ∧ Holdable width false n ∧ width ≤ f.kind.bits := by
    rcases hcolumn with hcolumn | hcolumn
    · rw [hcolumn] at h hsuits
      cases cell with
      | numbers numbers =>
          obtain ⟨hlength, hheld⟩ := h
          obtain ⟨n, rfl⟩ := List.length_eq_one_iff.mp hlength
          have hn := hheld n (List.mem_cons_self ..)
          rw [hunsigned] at hn
          exact ⟨n, rfl, hn, hsuits.1⟩
      | _ => exact h.elim
    · rw [hcolumn] at h hsuits
      cases cell with
      | numbers numbers =>
          obtain ⟨hlength, hheld⟩ := h
          obtain ⟨n, rfl⟩ := List.length_eq_one_iff.mp hlength
          exact ⟨n, rfl, hheld n (List.mem_cons_self ..), hsuits.1⟩
      | _ => exact h.elim
  obtain ⟨n, hcell, ⟨hlow, hhigh⟩, hwide⟩ := hnumber
  exact ⟨n, hcell, hlow, lt_of_lt_of_le hhigh (pow_le_pow_right₀ (by decide) hwide)⟩

theorem known_of_holdsKeys {f : StoredField} (hkeys : f.HoldsKeys) (isArray : Bool)
    (index offset : Nat) (offsets : ChunkOffsets) (n : Int) :
    FieldPlan.known ⟨.int f.kind, isArray,
        .slots (SlotRun.ofDescriptor (f.column.descriptor offset offsets) index).slots⟩
      (f.scalars key (.numbers [n])) = [some (Scalar.ofInt f.kind n)] := by
  obtain ⟨_, width, hcolumn | hcolumn⟩ := hkeys
  · rw [scalars, hcolumn]
    rfl
  · rw [scalars, hcolumn]
    rfl

end StoredField

/-- A last field that is fed with foreign keys. -/
structure RelatedField where
  name : String
  kind : IntKind
  wide : kind.width = .w32
  block : RelationshipBlock

namespace RelatedField

def toField (r : RelatedField) : Field :=
  .scalar r.name (.int r.kind)

def scalar (r : RelatedField) (row : Nat) : Scalar :=
  .ofWord32 r.kind ((KeyedWord.lookup? r.block.entries (UInt32.ofNat row)).getD 0)

theorem holds_slots {I : RowState → Prop} {c : RowContext} (r : RelatedField) {index offset : Nat}
    (hd : c.descriptors[index]? = some ⟨offset, 32, 1, .relationship⟩)
    (hentries : c.relationships = some ⟨r.block.entries⟩) (key : Option UInt32) :
    List.Forall₂ (Slot.Holds I c key (.int r.kind))
      (SlotRun.ofDescriptor ⟨offset, 32, 1, .relationship⟩ index).slots [r.scalar c.index] := by
  change List.Forall₂ _ [Slot.mk index 0 false] _
  refine List.Forall₂.cons ?_ List.Forall₂.nil
  unfold Slot.Holds RowContext.element
  rw [if_neg Bool.false_ne_true]
  refine (RowContext.gives_descriptor hd).bind ?_
  dsimp only
  rw [hentries]
  exact RowContext.gives_wordScalar r.kind _ r.wide

end RelatedField

namespace Mapping

theorem plansFrom_append (index : Nat) {fields : List Field} {descriptors : List Descriptor}
    (h : fields.length = descriptors.length) (others : List Field) (behind : List Descriptor) :
    plansFrom index (fields ++ others) (descriptors ++ behind) =
      plansFrom index fields descriptors ++ plansFrom (index + fields.length) others behind := by
  induction fields generalizing index descriptors with
  | nil =>
      cases descriptors with
      | nil => rfl
      | cons d descriptors => cases h
  | cons f fields ih =>
      cases descriptors with
      | nil => cases h
      | cons d descriptors =>
          have hposition : index + (f :: fields).length = index + 1 + fields.length := by
            rw [List.length_cons]
            omega
          rw [List.cons_append, List.cons_append, plansFrom, plansFrom, hposition,
            ih (index + 1) (Nat.succ.inj h), List.cons_append]

end Mapping

end ClientTable
