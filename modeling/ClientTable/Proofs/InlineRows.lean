import ClientTable.Proofs.ByteColumns
import ClientTable.Proofs.Numbers
import ClientTable.Proofs.RowValues
import ClientTable.Proofs.Texts

namespace ClientTable

open Attempt

namespace Decode

variable {α β : Type} {xs ys : Bytes} {a : α} {b : β}

/-- With the bytes at the cursor, the computation gives `a` and leaves the cursor behind them. -/
def Takes (m : Decode α) (bytes : Bytes) (a : α) : Prop :=
  ∀ (data : Bytes) (start : Nat) (palletIndex : Option (Nat × Nat)) (strings : StringTable),
    bytes <+: data.drop start →
      m.on ⟨⟨data, 8 * start⟩, palletIndex, strings⟩ =
        (.ok a, ⟨⟨data, 8 * (start + bytes.length)⟩, palletIndex, strings⟩)

theorem takes_lift {x : Except Error α} (h : x = .ok a) :
    Takes (liftM x : Decode α) [] a := by
  intro data start palletIndex strings _
  rw [h]
  rfl

theorem takes_pure (a : α) : Takes (pure a : Decode α) [] a :=
  takes_lift rfl

theorem Takes.bind {m : Decode α} {f : α → Decode β} (hm : Takes m xs a)
    (hf : Takes (f a) ys b) : Takes (m >>= f) (xs ++ ys) b := by
  intro data start palletIndex strings hbytes
  have hfirst := hm data start palletIndex strings ((List.prefix_append xs ys).trans hbytes)
  have hbehind : ys <+: data.drop (start + xs.length) := by
    obtain ⟨rest, hrest⟩ := hbytes
    refine ⟨rest, ?_⟩
    rw [← List.drop_drop, ← hrest, List.append_assoc, List.drop_left]
  rw [on_bind_of_ok hfirst, hf data _ palletIndex strings hbehind, List.length_append,
    Nat.add_assoc]

theorem Takes.bind_nil {m : Decode α} {f : α → Decode β} (hm : Takes m xs a)
    (hf : Takes (f a) [] b) : Takes (m >>= f) xs b := by
  have htakes := hm.bind hf
  rwa [List.append_nil] at htakes

theorem takes_mapM {f : α → Decode β} {items : List α} {parts : List (Bytes × β)}
    (h : List.Forall₂ (fun a part => Takes (f a) part.1 part.2) items parts) :
    Takes (items.mapM f) (parts.flatMap Prod.fst) (parts.map Prod.snd) := by
  induction h with
  | nil =>
      rw [List.mapM_nil]
      exact takes_pure []
  | cons hfirst _ ih =>
      rw [List.mapM_cons]
      exact hfirst.bind (ih.bind_nil (takes_pure _))

end Decode

/-- A number, or a text that is spelled out. -/
inductive InlineCell where
  | number (n : Number)
  | text (text : String)

namespace InlineCell

def kind : InlineCell → FieldKind
  | number n => n.kind
  | text _ => .text

def scalar : InlineCell → Scalar
  | number n => n.scalar
  | text t => .text t

/-- The bytes of a number, or those of a text with a zero byte behind it. -/
def bytes : InlineCell → Bytes
  | number n => n.bytes
  | text t => Utf8.encode t ++ [0]

/-- A text has no zero byte in it. -/
def IsClean : InlineCell → Prop
  | number _ => True
  | text t => 0 ∉ Utf8.encode t

instance : DecidablePred IsClean
  | number _ => inferInstanceAs (Decidable True)
  | text t => inferInstanceAs (Decidable (0 ∉ Utf8.encode t))

variable {c : RowContext} {index offset : Nat}

theorem takes_number (hvariable : c.isVariable = true) {n : Number}
    (hd : c.descriptors[index]? = some ⟨offset, n.kind.bits, 1, .plain false⟩) :
    (c.element index 0 n.kind).Takes n.bytes n.scalar := by
  have hbounds := n.kind.bits_bounds
  have hword : (c.inlineWord ⟨offset, n.kind.bits, 1, .plain false⟩ 0 false).Takes n.bytes
      (n.field.word false) := by
    intro data start palletIndex strings hbytes
    have hread := (Number.storedAt hbytes).readWordAt (r := ⟨data, 8 * start⟩)
      (by rw [n.width_field]; exact hbounds.1) (by rw [n.width_field]; exact hbounds.2) false
    rw [n.width_field] at hread
    have hcursor : 8 * start + n.kind.bits = 8 * (start + n.bytes.length) := by
      rw [n.length_bytes, n.kind.bits_eq]
      ring
    unfold RowContext.inlineWord
    rw [if_pos hvariable]
    unfold Decode.bits
    rw [on_focus, BitRead.on_word, hread]
    dsimp only
    rw [hcursor]
  have hdescriptor : (liftM (c.descriptor index) : Decode Descriptor).Takes []
      ⟨offset, n.kind.bits, 1, .plain false⟩ := by
    apply Decode.takes_lift
    unfold RowContext.descriptor
    rw [hd]
    rfl
  apply hdescriptor.bind
  dsimp only
  rw [if_neg n.kind_ne_text]
  exact hword.bind_nil (Decode.takes_lift (n.ofWord_field false))

theorem takes_text (hvariable : c.isVariable = true) {t : String} (hclean : 0 ∉ Utf8.encode t)
    (hd : c.descriptors[index]? = some ⟨offset, 32, 1, .plain false⟩) :
    (c.element index 0 .text).Takes (Utf8.encode t ++ [0]) (.text t) := by
  have htext : (Decode.bits BitRead.text).Takes (Utf8.encode t ++ [0]) t := by
    intro data start palletIndex strings hbytes
    have hstart : 8 * start / 8 = start := Nat.mul_div_cancel_left start (by decide)
    have hfound : terminated? (data.drop start) = some (Utf8.encode t) := by
      obtain ⟨rest, hrest⟩ := hbytes
      rw [← hrest, List.append_assoc]
      exact terminated?_append hclean rest
    have haligned : (BitReader.mk data (8 * start)).cursor % 8 = 0 := Nat.mul_mod_right 8 start
    unfold Decode.bits
    rw [on_focus, BitRead.on_text_of_aligned haligned]
    dsimp only
    rw [hstart, hfound]
    dsimp only
    rw [Utf8.decode_encode, List.length_append, List.length_singleton, ← Nat.mul_add]
  have hdescriptor : (liftM (c.descriptor index) : Decode Descriptor).Takes []
      ⟨offset, 32, 1, .plain false⟩ := by
    apply Decode.takes_lift
    unfold RowContext.descriptor
    rw [hd]
    rfl
  apply hdescriptor.bind
  change Decode.Takes (c.inlineString ⟨offset, 32, 1, .plain false⟩ 0) _ _
  unfold RowContext.inlineString
  rw [if_pos hvariable]
  exact htext.bind_nil (Decode.takes_pure _)

theorem takes_element (hvariable : c.isVariable = true) {cell : InlineCell}
    (hclean : cell.IsClean)
    (hd : c.descriptors[index]? = some ⟨offset, cell.kind.bits, 1, .plain false⟩) :
    (c.element index 0 cell.kind).Takes cell.bytes cell.scalar := by
  cases cell with
  | number n => exact takes_number hvariable hd
  | text t => exact takes_text hvariable hclean hd

end InlineCell

/-- A field of one element that is stored at its natural width. -/
structure InlineField where
  name : String
  kind : FieldKind

namespace InlineField

def toField (f : InlineField) : Field :=
  .scalar f.name f.kind

def Admits (f : InlineField) (cell : InlineCell) : Prop :=
  cell.kind = f.kind ∧ cell.IsClean

instance (f : InlineField) : DecidablePred f.Admits :=
  fun cell => inferInstanceAs (Decidable (cell.kind = f.kind ∧ _))

def infos : (position : Nat) → List InlineField → List FieldInfo
  | _, [] => []
  | position, f :: fields =>
    ⟨32 - UInt16.ofNat f.kind.bits, UInt16.ofNat position⟩ :: infos (position + f.kind.size) fields

def descriptors : (position : Nat) → List InlineField → List Descriptor
  | _, [] => []
  | position, f :: fields =>
    ⟨8 * position, f.kind.bits, 1, .plain false⟩ :: descriptors (position + f.kind.size) fields

def stop : (position : Nat) → List InlineField → Nat
  | position, [] => position
  | position, f :: fields => stop (position + f.kind.size) fields

def AllNear : (position : Nat) → List InlineField → Prop
  | _, [] => True
  | position, f :: fields => position < 0x10000 ∧ AllNear (position + f.kind.size) fields

instance decidableAllNear : (position : Nat) → DecidablePred (AllNear position)
  | _, [] => inferInstanceAs (Decidable True)
  | position, f :: fields =>
    have := decidableAllNear (position + f.kind.size) fields
    inferInstanceAs (Decidable (position < 0x10000 ∧ _))

theorem length_infos (position : Nat) (fields : List InlineField) :
    (infos position fields).length = fields.length := by
  induction fields generalizing position with
  | nil => rfl
  | cons f fields ih => simp [infos, ih]

theorem length_descriptors (position : Nat) (fields : List InlineField) :
    (descriptors position fields).length = fields.length := by
  induction fields generalizing position with
  | nil => rfl
  | cons f fields ih => simp [descriptors, ih]

theorem isCommon_descriptors {position : Nat} {fields : List InlineField} :
    ∀ d ∈ descriptors position fields, d.isCommon = false := by
  induction fields generalizing position with
  | nil => nofun
  | cons f fields ih =>
      rintro d (_ | ⟨_, hd⟩)
      · rfl
      · exact ih d hd

theorem fits_descriptors (position : Nat) (fields : List InlineField) :
    List.Forall₂ Mapping.Fits (fields.map toField) (descriptors position fields) := by
  induction fields generalizing position with
  | nil => exact List.Forall₂.nil
  | cons f fields ih => exact List.Forall₂.cons rfl (ih _)

theorem descriptors_append (position : Nat) (fields others : List InlineField) :
    descriptors position (fields ++ others) =
      descriptors position fields ++ descriptors (stop position fields) others := by
  induction fields generalizing position with
  | nil => rfl
  | cons f fields ih => rw [List.cons_append, descriptors, ih, descriptors, stop, List.cons_append]

def toColumn (f : InlineField) : ByteColumn where
  size := f.kind.size
  arity := 1
  size_pos := f.kind.size_bounds.1
  size_le := f.kind.size_bounds.2
  arity_pos := Nat.le_refl 1

theorem length_toColumn (f : InlineField) : f.toColumn.length = f.kind.size :=
  Nat.mul_one _

theorem infos_eq (position : Nat) (fields : List InlineField) :
    infos position fields = ByteColumn.infos position (fields.map toColumn) := by
  induction fields generalizing position with
  | nil => rfl
  | cons f fields ih =>
      rw [infos, ih, List.map_cons, ByteColumn.infos, length_toColumn, f.kind.bits_eq]
      rfl

theorem descriptors_eq (position : Nat) (fields : List InlineField) :
    descriptors position fields = ByteColumn.descriptors position (fields.map toColumn) := by
  induction fields generalizing position with
  | nil => rfl
  | cons f fields ih =>
      rw [descriptors, ih, List.map_cons, ByteColumn.descriptors, length_toColumn, f.kind.bits_eq]
      rfl

theorem allNear_map {position : Nat} {fields : List InlineField} (h : AllNear position fields) :
    ByteColumn.AllNear position (fields.map toColumn) := by
  induction fields generalizing position with
  | nil => trivial
  | cons f fields ih =>
      rw [List.map_cons, ByteColumn.AllNear, length_toColumn]
      exact ⟨h.1, ih h.2⟩

theorem descriptors_infos {h : Header} (hmap : h.hasOffsetMap = true) {index position : Nat}
    {fields : List InlineField} (hnear : AllNear position fields) :
    FieldInfo.descriptors h index (infos position fields) = .ok (descriptors position fields) := by
  have hcolumns := allNear_map hnear
  rw [infos_eq, descriptors_eq]
  rcases fields.eq_nil_or_concat' with rfl | ⟨front, last, rfl⟩
  · rfl
  · rw [List.map_append, List.map_singleton] at hcolumns ⊢
    rw [ByteColumn.descriptors_infos hcolumns, ByteColumn.lastArity, if_pos hmap]
    rfl

variable {c : RowContext} {external : Option UInt32}

def part (cell : InlineCell) : Bytes × Elements :=
  (cell.bytes, [some cell.scalar])

/-- Each field takes the bytes of its cell. -/
theorem takes_plans (hvariable : c.isVariable = true) {fields : List InlineField}
    {cells : List InlineCell} (hadmits : List.Forall₂ Admits fields cells) {index position : Nat}
    {others : List Descriptor}
    (hdescriptors : c.descriptors.drop index = descriptors position fields ++ others) :
    List.Forall₂ (fun p part => (FieldPlan.bodyElements c external p).Takes part.1 part.2)
      (Mapping.plansFrom index (fields.map toField) (descriptors position fields))
      (cells.map part) := by
  induction hadmits generalizing index position with
  | nil => exact List.Forall₂.nil
  | @cons f cell fields cells hfirst _ ih =>
      obtain ⟨hkind, hclean⟩ := hfirst
      apply List.Forall₂.cons
      · have hd : c.descriptors[index]? =
            some ⟨8 * position, cell.kind.bits, 1, .plain false⟩ := by
          rw [← List.head?_drop, hdescriptors, hkind]
          rfl
        have helement := InlineCell.takes_element hvariable hclean hd
        rw [hkind] at helement
        change Decode.Takes ([Slot.mk index 0 false].mapM _) _ _
        rw [List.mapM_cons, List.mapM_nil]
        exact (helement.bind_nil (Decode.takes_pure (some cell.scalar))).bind_nil
          ((Decode.takes_pure []).bind_nil (Decode.takes_pure _))
      · apply ih
        rw [← List.tail_drop, hdescriptors]
        rfl

end InlineField

theorem Mapping.takes_values {m : Mapping} {c : RowContext} {external : Option UInt32}
    {parts : List (Bytes × Elements)} {fields : List (List Scalar)}
    (hbody : List.Forall₂ (fun p part => (FieldPlan.bodyElements c external p).Takes part.1 part.2)
      m.fields parts)
    (hknown : parts.map Prod.snd = fields.map fun scalars => scalars.map some)
    (hshapes : List.Forall₂ FieldPlan.Shapes m.fields fields) (hneeds : m.needsKey = false) :
    (m.values c external).Takes (parts.flatMap Prod.fst) (fields.map Value.ofScalars) := by
  apply (Decode.takes_mapM hbody).bind_nil
  rw [hneeds, if_neg Bool.false_ne_true, hknown]
  exact Decode.takes_lift (fieldValues_of_shapes hshapes)

end ClientTable
