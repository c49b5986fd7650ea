import ClientTable.Proofs.BitFields
import ClientTable.Proofs.Attempt
import ClientTable.Row.Element

namespace ClientTable

open Attempt

namespace RowContext

variable {c : RowContext} {s t : RowState}

theorem of_descriptor {index : Nat} {d : Descriptor} (h : c.descriptor index = .ok d) :
    c.descriptors[index]? = some d := by
  unfold descriptor at h
  split at h
  · next hd =>
      cases h
      exact hd
  · cases h

end RowContext

def Scalar.kind : Scalar → FieldKind
  | int kind _ => .int kind
  | f32 _ => .f32
  | f64 _ => .f64
  | text _ => .text

theorem Scalar.kind_of_ofWord {word : BitVec 64} {kind : FieldKind} {v : Scalar}
    (h : ofWord word kind = .ok v) : v.kind = kind := by
  cases kind with
  | text => cases h
  | _ =>
      cases h
      rfl

namespace RowContext

variable {c : RowContext}

theorem ensures_wordScalar (word : UInt32) (kind : FieldKind) :
    Ensures (wordScalar word kind) fun v => v.kind = kind := by
  cases kind with
  | text => exact ensures_bind fun text => ensures_pure rfl
  | f64 => exact ensures_pure rfl
  | f32 => exact ensures_lift fun v => Scalar.kind_of_ofWord
  | int kind => exact ensures_lift fun v => Scalar.kind_of_ofWord

theorem ensures_inlineString (d : Descriptor) (element : Nat) :
    Ensures (c.inlineString d element) fun v => v.kind = .text := by
  unfold inlineString
  split
  · exact ensures_bind fun text => ensures_pure rfl
  · apply ensures_bind
    intro state
    apply ensures_bind
    intro stored
    apply ensures_bind
    intro offset
    exact ensures_bind fun text => ensures_pure rfl

theorem ensures_element (index element : Nat) (kind : FieldKind) :
    Ensures (c.element index element kind) fun v => v.kind = kind := by
  apply ensures_bind
  intro d
  have hinline (signed : Bool) : Ensures
      (if kind = .text then c.inlineString d element
        else do Scalar.ofWord (← c.inlineWord d element signed) kind) fun v => v.kind = kind := by
    split
    case isTrue htext =>
      rw [htext]
      exact ensures_inlineString d element
    case isFalse =>
      apply ensures_bind
      intro word
      exact ensures_lift fun v => Scalar.kind_of_ofWord
  have htable (table : Decode PalletTable) (chunk slot : Nat) : Ensures
      (do wordScalar (← (← table).word chunk slot) kind) fun v => v.kind = kind := by
    apply ensures_bind
    intro pallet
    apply ensures_bind
    intro word
    exact ensures_wordScalar word kind
  cases d.storage with
  | plain signed => exact hinline signed
  | immediate signed => exact hinline signed
  | common default chunk => exact ensures_throw _
  | relationship => exact ensures_wordScalar _ kind
  | pallet chunk =>
      apply ensures_bind
      intro stored
      exact htable _ _ _
  | palletArray chunk =>
      apply ensures_bind
      intro stored
      dsimp only
      split
      · exact ensures_throw_bind _ _
      · exact htable _ _ _

end RowContext

end ClientTable
