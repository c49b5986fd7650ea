import ClientTable.Descriptor.Build
import ClientTable.Proofs.Assignment
import ClientTable.Proofs.ColumnElements
import ClientTable.Proofs.Numbers
import ClientTable.Proofs.Texts

namespace ClientTable

open Attempt

/-- What a row has for one element: a number, or a text and where the string block has it. -/
inductive SimpleCell where
  | number (n : Number)
  | text (text : String) (offset : Nat)

namespace SimpleCell

def kind : SimpleCell → FieldKind
  | number n => n.kind
  | text .. => .text

def scalar : SimpleCell → Scalar
  | number n => n.scalar
  | text t _ => .text t

def field : SimpleCell → BitField
  | number n => n.field
  | text _ offset => ⟨32, BitVec.ofNat 32 offset⟩

def bytes (cell : SimpleCell) : Bytes :=
  littleEndianBytes cell.kind.size cell.field.bits.toNat

def InBlock (strings : Bytes) : SimpleCell → Prop
  | number _ => True
  | text t offset => StringTable.HasText strings offset t

instance (strings : Bytes) : DecidablePred (InBlock strings)
  | number _ => inferInstanceAs (Decidable True)
  | text .. => inferInstanceAs (Decidable (StringTable.HasText ..))

theorem width_field (cell : SimpleCell) : cell.field.width = cell.kind.bits := by
  cases cell with
  | number n => exact n.width_field
  | text t offset => rfl

theorem length_bytes (cell : SimpleCell) : cell.bytes.length = cell.kind.size :=
  length_littleEndianBytes cell.kind.size _

theorem length_flatMap_bytes {kind : FieldKind} {cells : List SimpleCell}
    (hkind : ∀ cell ∈ cells, cell.kind = kind) :
    (cells.flatMap bytes).length = cells.length * kind.size := by
  induction cells with
  | nil => simp
  | cons cell cells ih =>
      have hrest := ih fun other hother => hkind other (List.mem_cons_of_mem _ hother)
      rw [List.flatMap_cons, List.length_append, length_bytes,
        hkind cell (List.mem_cons_self ..), hrest, List.length_cons]
      ring

/-- Each of some cells of one kind stands in its place among them. -/
theorem prefix_of_getElem? {kind : FieldKind} {cells : List SimpleCell}
    (hkind : ∀ cell ∈ cells, cell.kind = kind) {data : Bytes} {start : Nat}
    (hdata : cells.flatMap bytes <+: data.drop start) {i : Nat} {cell : SimpleCell}
    (hcell : cells[i]? = some cell) : cell.bytes <+: data.drop (start + i * kind.size) := by
  induction cells generalizing start i with
  | nil => simp at hcell
  | cons first cells ih =>
      rw [List.flatMap_cons] at hdata
      cases i with
      | zero =>
          obtain rfl : first = cell := by simpa using hcell
          simpa using (List.prefix_append ..).trans hdata
      | succ i =>
          have hlength : first.bytes.length = kind.size := by
            rw [length_bytes, hkind first (List.mem_cons_self ..)]
          have hbehind : cells.flatMap bytes <+: data.drop (start + kind.size) := by
            obtain ⟨rest, hrest⟩ := hdata
            refine ⟨rest, ?_⟩
            rw [← List.drop_drop, ← hrest, List.append_assoc, ← hlength, List.drop_left]
          have hposition : start + (i + 1) * kind.size = start + kind.size + i * kind.size := by
            ring
          rw [hposition]
          apply ih (fun other hother => hkind other (List.mem_cons_of_mem _ hother)) hbehind
          simpa using hcell

variable {c : RowContext} {data strings : Bytes} {index offset arity i : Nat} {signed : Bool}

theorem gives_number (hfixed : c.isVariable = false) {n : Number}
    (hd : c.descriptors[index]? = some ⟨offset, n.kind.bits, arity, .plain signed⟩)
    (hstored : n.field.StoredAt data (offset + i * n.kind.bits)) :
    Gives (RowState.Sound c data strings) (c.element index i n.kind) n.scalar := by
  have hbounds := n.kind.bits_bounds
  rw [← n.width_field] at hbounds hstored
  apply (RowContext.gives_descriptor hd).bind
  dsimp only
  rw [if_neg n.kind_ne_text]
  apply (RowContext.gives_inlineWord hfixed n.width_field.symm hbounds.1 hbounds.2 hstored
    signed).bind
  exact gives_lift (n.ofWord_field signed)

theorem gives_text (hfixed : c.isVariable = false) (habsolute : c.hasRelativeStrings = false)
    (hblock : strings.length < wordLimit) {t : String} {textOffset : Nat}
    (htext : StringTable.HasText strings textOffset t)
    (hd : c.descriptors[index]? = some ⟨offset, 32, arity, .plain signed⟩)
    (hstored : BitField.StoredAt data (offset + i * 32) ⟨32, BitVec.ofNat 32 textOffset⟩) :
    Gives (RowState.Sound c data strings) (c.element index i .text) (.text t) := by
  have hvalue : (BitVec.ofNat 32 textOffset).toNat = textOffset := by
    have hoffset := htext.offset_lt
    rw [BitVec.toNat_ofNat]
    exact Nat.mod_eq_of_lt (hoffset.trans hblock)
  have hlookup : c.stringOffset (offset + i * 32) textOffset = .ok (UInt32.ofNat textOffset) := by
    unfold RowContext.stringOffset
    rw [habsolute]
    rfl
  have hstring : Gives (RowState.Sound c data strings) (Decode.string (UInt32.ofNat textOffset))
      (.text t) := Decode.gives_string (htext.textAt hblock)
  apply (RowContext.gives_descriptor hd).bind
  change Gives _ (c.inlineString ⟨offset, 32, arity, .plain signed⟩ i) _
  unfold RowContext.inlineString
  rw [hfixed]
  apply gives_get_bind
  intro s hs
  rw [← hs.row] at hstored
  have hread := hstored.readAt (Nat.le_add_left 1 31) (Nat.le_add_right 32 32)
  change s.bits.readAt (offset + i * 32) 32 = .ok (BitVec.ofNat 32 textOffset).toNat at hread
  rw [hvalue] at hread
  exact ((gives_lift hread).bind ((gives_lift hlookup).bind hstring)) s hs

theorem gives_element (hfixed : c.isVariable = false) (habsolute : c.hasRelativeStrings = false)
    (hblock : strings.length < wordLimit) {cell : SimpleCell} (htext : cell.InBlock strings)
    (hd : c.descriptors[index]? = some ⟨offset, cell.kind.bits, arity, .plain signed⟩)
    (hstored : cell.field.StoredAt data (offset + i * cell.kind.bits)) :
    Gives (RowState.Sound c data strings) (c.element index i cell.kind) cell.scalar := by
  cases cell with
  | number n => exact gives_number hfixed hd hstored
  | text t textOffset => exact gives_text hfixed habsolute hblock htext hd hstored

end SimpleCell

def Field.width (f : Field) : Nat :=
  f.kind.bits * f.arity

def Field.widthOf (fields : List Field) : Nat :=
  total (fields.map width)

/-- The cells are elements of the field, as many as it has. -/
structure Field.Admits (strings : Bytes) (f : Field) (cells : List SimpleCell) : Prop where
  length : cells.length = f.arity
  kind : ∀ cell ∈ cells, cell.kind = f.kind
  text : ∀ cell ∈ cells, cell.InBlock strings

instance (strings : Bytes) (f : Field) : DecidablePred (f.Admits strings) :=
  fun cells => decidable_of_iff
    (cells.length = f.arity ∧ (∀ cell ∈ cells, cell.kind = f.kind) ∧
      ∀ cell ∈ cells, cell.InBlock strings)
    ⟨fun ⟨length, kind, text⟩ => ⟨length, kind, text⟩,
      fun ⟨length, kind, text⟩ => ⟨length, kind, text⟩⟩

/-- A row with a list of cells for each field, and what follows them. -/
structure SimpleRow where
  fields : List (List SimpleCell)
  padding : Bytes

namespace SimpleRow

def cellBytes (fields : List (List SimpleCell)) : Bytes :=
  fields.flatMap fun cells => cells.flatMap SimpleCell.bytes

def bytes (row : SimpleRow) : Bytes :=
  cellBytes row.fields ++ row.padding

def values (row : SimpleRow) : List Value :=
  row.fields.map fun cells => .ofScalars (cells.map SimpleCell.scalar)

theorem length_fieldBytes {strings : Bytes} {f : Field} {cells : List SimpleCell}
    (h : f.Admits strings cells) : 8 * (cells.flatMap SimpleCell.bytes).length = f.width := by
  rw [SimpleCell.length_flatMap_bytes h.kind, h.length, Field.width, f.kind.bits_eq]
  ring

theorem length_cellBytes {strings : Bytes} {fields : List Field} {cells : List (List SimpleCell)}
    (h : List.Forall₂ (Field.Admits strings) fields cells) :
    8 * (cellBytes cells).length = Field.widthOf fields := by
  induction h with
  | nil => rfl
  | @cons f first fields cells hfirst _ ih =>
      have hfield := length_fieldBytes hfirst
      have hrest : 8 * (cells.flatMap fun cells => cells.flatMap SimpleCell.bytes).length =
          Field.widthOf fields := ih
      rw [cellBytes, List.flatMap_cons, List.length_append, Nat.mul_add, hfield, hrest]
      rfl

end SimpleRow

namespace Descriptor

theorem consecutive_cons {offset : Nat} {f : Field} {fields : List Field}
    (h : offset + f.width < wordLimit) :
    consecutive offset (f :: fields) =
      ⟨offset, f.kind.bits, f.arity, .plain f.kind.isSigned⟩ ::
        consecutive (offset + f.width) fields := by
  have hnext : min (offset + min (f.kind.bits * f.arity) offsetLimit) offsetLimit =
      offset + f.width := by
    change offset + f.kind.bits * f.arity < wordLimit at h
    change _ = offset + f.kind.bits * f.arity
    unfold offsetLimit
    omega
  rw [consecutive, hnext]

theorem isCommon_consecutive {offset : Nat} {fields : List Field} :
    ∀ d ∈ consecutive offset fields, d.isCommon = false := by
  induction fields generalizing offset with
  | nil => nofun
  | cons f fields ih =>
      rintro d (_ | ⟨_, hd⟩)
      · rfl
      · exact ih d hd

theorem fits_consecutive (offset : Nat) (fields : List Field) :
    List.Forall₂ Mapping.Fits fields (consecutive offset fields) := by
  induction fields generalizing offset with
  | nil => exact List.Forall₂.nil
  | cons f fields ih => exact List.Forall₂.cons rfl (ih _)

theorem bitStop_consecutive (offset : Nat) (fields : List Field) :
    total ((consecutive offset fields).map recordBits) = Field.widthOf fields ∧
      ∀ d ∈ consecutive offset fields, d.bitStop ≤ offset + Field.widthOf fields := by
  induction fields generalizing offset with
  | nil => exact ⟨rfl, nofun⟩
  | cons f fields ih =>
      have hwidth : Field.widthOf (f :: fields) = f.width + Field.widthOf fields := rfl
      have hnext : min (offset + min f.width offsetLimit) offsetLimit ≤ offset + f.width := by
        omega
      obtain ⟨hsum, hstop⟩ := ih (min (offset + min f.width offsetLimit) offsetLimit)
      rw [hwidth]
      constructor
      · exact congrArg (f.width + ·) hsum
      · rintro d (_ | ⟨_, hd⟩)
        · change offset + f.width ≤ _
          omega
        · have hle := hstop d hd
          omega

end Descriptor

namespace SimpleRow

variable {c : RowContext} {data strings : Bytes} {external key : Option UInt32}

/-- The slots of a field hold what its cells stand for. -/
theorem holds_slots (hfixed : c.isVariable = false) (habsolute : c.hasRelativeStrings = false)
    (hblock : strings.length < wordLimit) {f : Field} {cells : List SimpleCell}
    (hadmits : f.Admits strings cells) {index start : Nat}
    (hd : c.descriptors[index]? =
      some ⟨8 * start, f.kind.bits, f.arity, .plain f.kind.isSigned⟩)
    (hdata : cells.flatMap SimpleCell.bytes <+: data.drop start) :
    List.Forall₂ (Slot.Holds (RowState.Sound c data strings) c key f.kind)
      (SlotRun.ofDescriptor ⟨8 * start, f.kind.bits, f.arity, .plain f.kind.isSigned⟩ index).slots
      (cells.map SimpleCell.scalar) := by
  apply forall₂_range'_map hadmits.length
  intro i cell hcell
  have hmem := List.mem_of_getElem? hcell
  have hkind := hadmits.kind cell hmem
  have hplace : 8 * (start + i * f.kind.size) = 8 * start + i * cell.kind.bits := by
    rw [hkind, f.kind.bits_eq]
    ring
  have hstored : cell.field.StoredAt data (8 * (start + i * f.kind.size)) :=
    BitField.storedAt_of_prefix (cell.width_field.trans cell.kind.bits_eq)
      cell.kind.size_bounds.1 (SimpleCell.prefix_of_getElem? hadmits.kind hdata hcell)
  rw [hplace] at hstored
  rw [← hkind] at hd
  change Gives _ (c.element index (0 + i) f.kind) cell.scalar
  rw [Nat.zero_add, ← hkind]
  exact SimpleCell.gives_element hfixed habsolute hblock (hadmits.text cell hmem) hd hstored

/-- The fields of a row hold what its cells stand for. -/
theorem holds_plans (hfixed : c.isVariable = false) (habsolute : c.hasRelativeStrings = false)
    (hblock : strings.length < wordLimit) {fields : List Field} {cells : List (List SimpleCell)}
    (hadmits : List.Forall₂ (Field.Admits strings) fields cells) {index start : Nat}
    (hdescriptors : c.descriptors.drop index = Descriptor.consecutive (8 * start) fields)
    (hwidth : 8 * start + Field.widthOf fields < wordLimit)
    (hdata : cellBytes cells <+: data.drop start) :
    List.Forall₂ (FieldPlan.Holds (RowState.Sound c data strings) c external key)
      (Mapping.plansFrom index fields (Descriptor.consecutive (8 * start) fields))
      (cells.map fun cells => cells.map SimpleCell.scalar) := by
  induction hadmits generalizing index start with
  | nil => exact List.Forall₂.nil
  | @cons f first fields cells hfirst _ ih =>
      have hsize := length_fieldBytes hfirst
      have hwidths : Field.widthOf (f :: fields) = f.width + Field.widthOf fields := rfl
      rw [hwidths] at hwidth
      have hnext : 8 * start + f.width =
          8 * (start + (first.flatMap SimpleCell.bytes).length) := by omega
      rw [Descriptor.consecutive_cons (by omega)] at hdescriptors ⊢
      rw [hnext] at hdescriptors ⊢
      obtain ⟨rest, hrest⟩ := hdata
      rw [cellBytes, List.flatMap_cons, List.append_assoc] at hrest
      apply List.Forall₂.cons
      · apply holds_slots hfixed habsolute hblock hfirst
        · rw [← List.head?_drop, hdescriptors]
          rfl
        · exact ⟨_, hrest⟩
      · apply ih
        · rw [← List.tail_drop, hdescriptors]
          rfl
        · omega
        · refine ⟨rest, ?_⟩
          rw [← List.drop_drop, ← hrest, List.drop_left]
          rfl

theorem shapes_plans {fields : List Field} {cells : List (List SimpleCell)}
    (hadmits : List.Forall₂ (Field.Admits strings) fields cells) (index offset : Nat) :
    List.Forall₂ FieldPlan.Shapes
      (Mapping.plansFrom index fields (Descriptor.consecutive offset fields))
      (cells.map fun cells => cells.map SimpleCell.scalar) := by
  induction hadmits generalizing index offset with
  | nil => exact List.Forall₂.nil
  | @cons f first fields cells hfirst _ ih =>
      have hlength : (first.map SimpleCell.scalar).length = f.arity := by
        rw [List.length_map, hfirst.length]
      apply List.Forall₂.cons _ (ih _ _)
      constructor
      · intro (hnil : first.map SimpleCell.scalar = [])
        have hpositive := f.arity_pos
        rw [← hlength, hnil] at hpositive
        exact Nat.lt_irrefl 0 hpositive
      · rw [hlength]
        rfl

end SimpleRow

end ClientTable
