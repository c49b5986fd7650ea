import ClientTable.Proofs.StoredRows
import ClientTable.Proofs.Texts

namespace ClientTable

open Attempt

/-- A field that one word of the record feeds. -/
structure WordField where
  name : String
  isText : Bool

/-- What a row has in one word: a number, or a text and where the string block has it. -/
inductive WordCell where
  | number (n : UInt32)
  | text (text : String) (offset : Nat)

namespace WordField

def kind (f : WordField) : FieldKind :=
  if f.isText then .text else .u32

def toField (f : WordField) : Field :=
  .scalar f.name f.kind

/-- The cell is one of the field, and the string block has its text. -/
def Admits (block : Bytes) (f : WordField) : WordCell → Prop
  | .number _ => f.isText = false
  | .text text offset => f.isText = true ∧ StringTable.HasText block offset text

instance (block : Bytes) (f : WordField) : DecidablePred (f.Admits block)
  | .number _ => inferInstanceAs (Decidable (_ = _))
  | .text .. => inferInstanceAs (Decidable (_ ∧ _))

end WordField

namespace WordCell

def scalar : WordCell → Scalar
  | number n => .int ⟨.w32, false⟩ n.toBitVec
  | text t _ => .text t

/-- The number of bytes from a cell at a position to its text, if the string block starts at
`strings`. -/
def distance (strings position : Nat) : WordCell → Nat
  | number _ => 0
  | text _ offset => strings + offset - position

/-- The word of a cell: its number, or the distance to its text. -/
def word (strings position : Nat) : WordCell → UInt32
  | number n => n
  | text t offset => UInt32.ofNat ((text t offset).distance strings position)

def fields (strings : Nat) : (position : Nat) → List WordCell → List BitField
  | _, [] => []
  | position, cell :: cells =>
    ⟨32, (cell.word strings position).toBitVec⟩ :: fields strings (position + 4) cells

/-- No text is too far from its cell, the first of which is at a position. -/
def AllNear (strings : Nat) : (position : Nat) → List WordCell → Prop
  | _, [] => True
  | position, cell :: cells =>
    cell.distance strings position < wordLimit ∧ AllNear strings (position + 4) cells

instance decidableAllNear (strings : Nat) :
    (position : Nat) → DecidablePred (AllNear strings position)
  | _, [] => inferInstanceAs (Decidable True)
  | position, cell :: cells =>
    have := decidableAllNear strings (position + 4) cells
    inferInstanceAs (Decidable (cell.distance strings position < wordLimit ∧ _))

theorem distance_add (start strings position : Nat) (cell : WordCell) :
    cell.distance (start + strings) (start + position) = cell.distance strings position := by
  cases cell with
  | number n => rfl
  | text t offset =>
      change start + strings + offset - (start + position) = strings + offset - position
      omega

theorem word_add (start strings position : Nat) (cell : WordCell) :
    cell.word (start + strings) (start + position) = cell.word strings position := by
  cases cell with
  | number n => rfl
  | text t offset => rw [word, word, distance_add]

theorem fields_add (start strings position : Nat) (cells : List WordCell) :
    fields (start + strings) (start + position) cells = fields strings position cells := by
  induction cells generalizing position with
  | nil => rfl
  | cons cell cells ih => rw [fields, fields, word_add, Nat.add_assoc, ih]

theorem allNear_add {start strings position : Nat} {cells : List WordCell} :
    AllNear (start + strings) (start + position) cells ↔ AllNear strings position cells := by
  induction cells generalizing position with
  | nil => rfl
  | cons cell cells ih => rw [AllNear, AllNear, distance_add, Nat.add_assoc, ih]

theorem widthOf_fields (strings position : Nat) (cells : List WordCell) :
    BitField.widthOf (fields strings position cells) = 32 * cells.length := by
  induction cells generalizing position with
  | nil => rfl
  | cons cell cells ih =>
      change 32 + BitField.widthOf (fields strings (position + 4) cells) = _
      rw [ih, List.length_cons]
      omega

theorem fields_append (strings position : Nat) (cells others : List WordCell) :
    fields strings position (cells ++ others) =
      fields strings position cells ++ fields strings (position + 4 * cells.length) others := by
  induction cells generalizing position with
  | nil => rfl
  | cons cell cells ih =>
      have hposition : position + 4 * (cell :: cells).length =
          position + 4 + 4 * cells.length := by
        rw [List.length_cons]
        omega
      rw [List.cons_append, fields, fields, ih, hposition, List.cons_append]

theorem allNear_append {strings position : Nat} {cells others : List WordCell} :
    AllNear strings position (cells ++ others) ↔
      AllNear strings position cells ∧ AllNear strings (position + 4 * cells.length) others := by
  induction cells generalizing position with
  | nil =>
      constructor
      · intro h
        exact ⟨trivial, h⟩
      · rintro ⟨_, h⟩
        exact h
  | cons cell cells ih =>
      have hposition : position + 4 * (cell :: cells).length =
          position + 4 + 4 * cells.length := by
        rw [List.length_cons]
        omega
      rw [List.cons_append, AllNear, AllNear, ih, hposition, and_assoc]

end WordCell

def wordDescriptors (index count : Nat) : List Descriptor :=
  (List.range' index count).map fun i => ⟨32 * i, 32, 1, .plain false⟩

namespace wordDescriptors

theorem eq_descriptors (index count : Nat) (offsets : ChunkOffsets) :
    Column.descriptors (32 * index) offsets (List.replicate count (.plain 32 1)) =
      wordDescriptors index count := by
  induction count generalizing index offsets with
  | zero => rfl
  | succ count ih =>
      have hnext : 32 * index + (Column.plain 32 1).recordWidth = 32 * (index + 1) := by
        rw [Nat.mul_succ]
        rfl
      rw [List.replicate_succ, Column.descriptors, hnext, ih]
      rfl

theorem append (index count others : Nat) :
    wordDescriptors index (count + others) =
      wordDescriptors index count ++ wordDescriptors (index + count) others := by
  unfold wordDescriptors
  rw [← List.map_append, List.range'_append_1]

theorem getElem? {count i : Nat} (h : i < count) :
    (wordDescriptors 0 count)[i]? = some ⟨32 * i, 32, 1, .plain false⟩ := by
  unfold wordDescriptors
  rw [List.getElem?_map, List.getElem?_range' h, Option.map_some, Nat.one_mul, Nat.zero_add]

theorem isCommon_eq_false {index count : Nat} :
    ∀ d ∈ wordDescriptors index count, d.isCommon = false := by
  intro d hd
  obtain ⟨i, _, rfl⟩ := List.mem_map.mp hd
  rfl

theorem fits (index : Nat) (fields : List WordField) :
    List.Forall₂ Mapping.Fits (fields.map WordField.toField)
      (wordDescriptors index fields.length) := by
  induction fields generalizing index with
  | nil => exact List.Forall₂.nil
  | cons f fields ih => exact List.Forall₂.cons rfl (ih (index + 1))

end wordDescriptors

/-- A row of fixed size from which the texts of a string block are reached by their distance. -/
structure RowContext.Reaches (c : RowContext) (texts : Bytes) : Prop where
  fixed : c.isVariable = false
  relative : c.hasRelativeStrings = true
  block : texts.length < wordLimit
  stop : c.stringBlockStart + texts.length < positionLimit

theorem RowContext.Reaches.stringOffset {c : RowContext} {texts : Bytes} (hc : c.Reaches texts)
    {position offset : Nat} (hbefore : c.offset + position / 8 ≤ c.stringBlockStart)
    (hoffset : offset < texts.length) :
    c.stringOffset position (c.stringBlockStart + offset - (c.offset + position / 8)) =
      .ok (UInt32.ofNat offset) := by
  have hshort := hc.block
  have hstop := hc.stop
  have hposition : c.offset + position / 8 +
      (c.stringBlockStart + offset - (c.offset + position / 8)) =
        c.stringBlockStart + offset := by omega
  have hlimit : ¬ positionLimit ≤ c.stringBlockStart + offset := by omega
  have hbehind : ¬ c.stringBlockStart + offset < c.stringBlockStart := by omega
  have hword : ¬ wordLimit ≤ offset := by omega
  unfold RowContext.stringOffset
  rw [hc.relative, if_pos rfl, hposition]
  dsimp only
  rw [if_neg hlimit, if_neg hbehind, Nat.add_sub_cancel_left, if_neg hword]
  rfl

namespace WordCell

variable {c : RowContext} {data texts : Bytes}

theorem gives_number (hc : c.Reaches texts) {i : Nat} {n : UInt32}
    (hd : c.descriptors[i]? = some ⟨32 * i, 32, 1, .plain false⟩)
    (hstored : BitField.StoredAt data (32 * i) ⟨32, n.toBitVec⟩) :
    Gives (RowState.Sound c data texts) (c.element i 0 .u32) (scalar (.number n)) := by
  have hplace : BitField.StoredAt data (32 * i + 0 * 32) ⟨32, n.toBitVec⟩ := by
    rw [Nat.zero_mul, Nat.add_zero]
    exact hstored
  have hword : Gives (RowState.Sound c data texts)
      (c.inlineWord ⟨32 * i, 32, 1, .plain false⟩ 0 false)
      (BitField.word ⟨32, n.toBitVec⟩ false) :=
    RowContext.gives_inlineWord hc.fixed rfl (Nat.le_add_left 1 31) (Nat.le_add_right 32 32)
      hplace false
  unfold RowContext.element
  refine (RowContext.gives_descriptor hd).bind ?_
  refine hword.bind (gives_lift ?_)
  change Except.ok (Scalar.int ⟨.w32, false⟩ ((n.toBitVec.setWidth 64).setWidth 32)) = _
  rw [BitVec.setWidth_setWidth_of_le _ (by decide), BitVec.setWidth_eq]
  rfl

theorem gives_text (hc : c.Reaches texts) {i offset : Nat} {text : String}
    (hd : c.descriptors[i]? = some ⟨32 * i, 32, 1, .plain false⟩)
    (hbefore : c.offset + 4 * i ≤ c.stringBlockStart)
    (htext : StringTable.HasText texts offset text)
    (hnear : c.stringBlockStart + offset - (c.offset + 4 * i) < wordLimit)
    (hstored : BitField.StoredAt data (32 * i)
      ⟨32, (UInt32.ofNat (c.stringBlockStart + offset - (c.offset + 4 * i))).toBitVec⟩) :
    Gives (RowState.Sound c data texts) (c.element i 0 .text) (.text text) := by
  have hbyte : 4 * i = (32 * i + 0 * 32) / 8 := by omega
  have hplace : BitField.StoredAt data (32 * i + 0 * 32)
      ⟨32, (UInt32.ofNat (c.stringBlockStart + offset - (c.offset + 4 * i))).toBitVec⟩ := by
    rw [Nat.zero_mul, Nat.add_zero]
    exact hstored
  have hoffset : c.stringOffset (32 * i + 0 * 32)
      (c.stringBlockStart + offset - (c.offset + 4 * i)) = .ok (UInt32.ofNat offset) := by
    rw [hbyte] at hbefore ⊢
    exact hc.stringOffset hbefore htext.offset_lt
  have hstring : Gives (RowState.Sound c data texts) (Decode.string (UInt32.ofNat offset))
      (.text text) := Decode.gives_string (htext.textAt hc.block)
  unfold RowContext.element
  refine (RowContext.gives_descriptor hd).bind ?_
  change Gives _ (c.inlineString ⟨32 * i, 32, 1, .plain false⟩ 0) _
  unfold RowContext.inlineString
  rw [hc.fixed]
  refine gives_get_bind fun s hs => ?_
  rw [← hs.row] at hplace
  have hread : s.bits.readAt (32 * i + 0 * 32) 32 =
      .ok (UInt32.ofNat (c.stringBlockStart + offset - (c.offset + 4 * i))).toNat :=
    hplace.readAt (Nat.le_add_left 1 31) (Nat.le_add_right 32 32)
  rw [toNat_ofNat_of_lt hnear] at hread
  exact ((gives_lift hread).bind ((gives_lift hoffset).bind hstring)) s hs

theorem gives_element (hc : c.Reaches texts) {i : Nat}
    (hd : c.descriptors[i]? = some ⟨32 * i, 32, 1, .plain false⟩)
    (hbefore : c.offset + 4 * i ≤ c.stringBlockStart) {f : WordField} {cell : WordCell}
    (hadmits : f.Admits texts cell)
    (hnear : cell.distance c.stringBlockStart (c.offset + 4 * i) < wordLimit)
    (hstored : BitField.StoredAt data (32 * i)
      ⟨32, (cell.word c.stringBlockStart (c.offset + 4 * i)).toBitVec⟩) :
    Gives (RowState.Sound c data texts) (c.element i 0 f.kind) cell.scalar := by
  unfold WordField.kind
  cases cell with
  | number n =>
      rw [show f.isText = false from hadmits]
      exact gives_number hc hd hstored
  | text t offset =>
      obtain ⟨hkind, htext⟩ := hadmits
      rw [hkind]
      exact gives_text hc hd hbefore htext hnear hstored

theorem holds_plans (hc : c.Reaches texts) {external key : Option UInt32}
    {fields : List WordField} {cells : List WordCell}
    (hadmits : List.Forall₂ (WordField.Admits texts) fields cells) {index : Nat}
    (hdescriptors : ∀ i < index + fields.length,
      c.descriptors[i]? = some ⟨32 * i, 32, 1, .plain false⟩)
    (hbefore : c.offset + 4 * (index + fields.length) ≤ c.stringBlockStart)
    (hnear : AllNear c.stringBlockStart (c.offset + 4 * index) cells)
    (hstored : BitField.AllStored data (32 * index)
      (WordCell.fields c.stringBlockStart (c.offset + 4 * index) cells)) :
    List.Forall₂ (FieldPlan.Holds (RowState.Sound c data texts) c external key)
      (Mapping.plansFrom index (fields.map WordField.toField)
        (wordDescriptors index fields.length))
      ((cells.map scalar).map fun s => [s]) := by
  induction hadmits generalizing index with
  | nil => exact List.Forall₂.nil
  | @cons f cell fields cells hfirst _ ih =>
      obtain ⟨hcell, hrest⟩ := hstored
      obtain ⟨hclose, hnear⟩ := hnear
      rw [List.length_cons] at hdescriptors hbefore
      have hposition : c.offset + 4 * index + 4 = c.offset + 4 * (index + 1) := by omega
      have hbit : 32 * index + 32 = 32 * (index + 1) := by omega
      rw [hposition] at hnear
      refine List.Forall₂.cons ?_ (ih ?_ (by omega) hnear ?_)
      · change List.Forall₂ _ [Slot.mk index 0 false] [cell.scalar]
        refine List.Forall₂.cons ?_ List.Forall₂.nil
        exact gives_element hc (hdescriptors index (by omega)) (by omega) hfirst hclose hcell
      · intro i hi
        exact hdescriptors i (by omega)
      · rw [← hposition, ← hbit]
        exact hrest

end WordCell

namespace Mapping

theorem isSingle_plansFrom_words {index count : Nat} {fields : List WordField} :
    ∀ p ∈ plansFrom index (fields.map WordField.toField) (wordDescriptors index count),
      p.IsSingle := by
  apply isSingle_plansFrom _ wordDescriptors.isCommon_eq_false
  intro f hf
  obtain ⟨_, _, rfl⟩ := List.mem_map.mp hf
  rfl

theorem gives_values_of_isSingle {I : RowState → Prop} {c : RowContext} {external : Option UInt32}
    {m : Mapping} {scalars : List Scalar} (h : ∀ p ∈ m.fields, p.IsSingle)
    (hfields : List.Forall₂ (FieldPlan.Holds I c external none) m.fields
      (scalars.map fun s => [s])) :
    Gives I (m.values c external) (scalars.map .scalar) := by
  have hlength : m.fields.length = scalars.length :=
    hfields.length_eq.trans (List.length_map _)
  have hvalues := gives_values_of_not_needsKey hfields (shapes_of_isSingle hlength h)
    (needsKey_eq_false fun p hp => (h p hp).2)
  rw [List.map_map] at hvalues
  exact hvalues

end Mapping

end ClientTable
