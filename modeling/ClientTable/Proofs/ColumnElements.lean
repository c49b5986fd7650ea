import ClientTable.Proofs.Columns
import ClientTable.Proofs.Interning
import ClientTable.Proofs.RowValues

namespace ClientTable

open Attempt

/-- A row of the given bytes is being decoded: an index that has been read for a pallet array is the
one that stands in the row, and the texts kept are those of the string block. -/
structure RowState.Sound (c : RowContext) (data texts : Bytes) (s : RowState) : Prop where
  row : s.bits.data = data
  palletIndex : ∀ index stored, s.palletIndex = some (index, stored) →
    ∃ d, c.descriptors[index]? = some d ∧
      stored = littleEndian data / 2 ^ d.bitOffset % 2 ^ d.bitSize
  strings : s.strings.Keeps texts

theorem RowState.sound_start (c : RowContext) (data : Bytes) {texts : Bytes} {t : StringTable}
    (h : t.Keeps texts) : Sound c data texts (.start data t) where
  row := rfl
  palletIndex := nofun
  strings := h

theorem Decode.gives_string {c : RowContext} {data texts : Bytes} {offset : UInt32}
    {text : String} (h : StringTable.textAt texts offset = .ok text) :
    Gives (RowState.Sound c data texts) (Decode.string offset) (.text text) := by
  have hresolve : Gives (fun t : StringTable => t.Keeps texts) (StringTable.resolve offset)
      text := by
    intro t ht
    obtain ⟨htext, hafter⟩ := ht.on_resolve offset
    exact ⟨htext.trans h, hafter⟩
  refine Gives.bind (a := text) (hresolve.focus (fun s hs => hs.strings) ?_) (gives_pure _)
  intro s t hs ht
  exact ⟨hs.row, hs.palletIndex, ht⟩

namespace RowContext

variable {c : RowContext} {data texts : Bytes}

theorem gives_descriptor {I : RowState → Prop} {index : Nat} {d : Descriptor}
    (h : c.descriptors[index]? = some d) :
    Gives I (liftM (c.descriptor index) : Decode Descriptor) d := by
  refine gives_lift ?_
  unfold descriptor
  rw [h]
  rfl

theorem gives_inlineWord (hfixed : c.isVariable = false) {d : Descriptor} {element : Nat}
    {f : BitField} (hwidth : d.bitSize = f.width) (hpositive : 1 ≤ f.width)
    (hsmall : f.width ≤ 64) (hstored : f.StoredAt data (d.bitOffset + element * f.width))
    (signed : Bool) :
    Gives (RowState.Sound c data texts) (c.inlineWord d element signed) (f.word signed) := by
  unfold inlineWord
  rw [hfixed, hwidth]
  refine gives_get_bind fun s hs => ⟨?_, hs⟩
  rw [← hs.row] at hstored
  exact hstored.readWordAt hpositive hsmall signed

theorem gives_wordScalar {I : RowState → Prop} (kind : IntKind) (word : UInt32)
    (hwide : kind.width = .w32) :
    Gives I (wordScalar word (.int kind)) (.int kind (word.toBitVec.setWidth kind.bits)) := by
  obtain ⟨width, signed⟩ := kind
  obtain rfl : width = .w32 := hwide
  refine gives_lift ?_
  change Except.ok (Scalar.int ⟨.w32, signed⟩
    ((if signed then word.toBitVec.signExtend 64 else word.toBitVec.setWidth 64).setWidth 32)) = _
  cases signed with
  | false =>
      rw [if_neg Bool.false_ne_true, BitVec.setWidth_setWidth_of_le _ (by decide)]
      rfl
  | true =>
      have hword : (word.toBitVec.signExtend 64).setWidth 32 = word.toBitVec := by
        rw [BitVec.signExtend, setWidth_ofInt (by decide), BitVec.ofInt_toInt]
      rw [if_pos rfl, hword]
      exact congrArg (fun bits => Except.ok (Scalar.int ⟨.w32, true⟩ bits))
        (BitVec.setWidth_eq word.toBitVec).symm

/-- The index that stands in the row, whether it has been read before or not. -/
theorem gives_palletArrayIndex (hfixed : c.isVariable = false) {index : Nat} {d : Descriptor}
    (hd : c.descriptors[index]? = some d) {f : BitField} (hwidth : d.bitSize = f.width)
    (hpositive : 1 ≤ f.width) (hsmall : f.width ≤ 64) (hstored : f.StoredAt data d.bitOffset) :
    Gives (RowState.Sound c data texts) (c.palletArrayIndex index d) f.bits.toNat := by
  have hword : (f.word false).toNat = f.bits.toNat := by
    change (f.bits.setWidth 64).toNat = _
    rw [BitVec.toNat_setWidth]
    exact Nat.mod_eq_of_lt
      (Nat.lt_of_lt_of_le f.bits.isLt (Nat.pow_le_pow_right (by decide) hsmall))
  have hread : Gives (RowState.Sound c data texts) (palletArrayIndex.readIndex c index d)
      f.bits.toNat := by
    have hplace : f.StoredAt data (d.bitOffset + 0 * f.width) := by
      rw [Nat.zero_mul, Nat.add_zero]
      exact hstored
    refine (gives_inlineWord hfixed hwidth hpositive hsmall hplace false).bind ?_
    rw [hword]
    intro s hs
    refine ⟨rfl, ⟨hs.row, ?_, hs.strings⟩⟩
    rintro _ _ ⟨⟩
    refine ⟨d, hd, ?_⟩
    rw [hwidth]
    exact hstored.2.symm
  unfold palletArrayIndex
  refine gives_get_bind fun s hs => ?_
  cases hcached : s.palletIndex with
  | none => exact hread s hs
  | some entry =>
      obtain ⟨cached, stored⟩ := entry
      dsimp only
      split
      case isTrue hsame =>
        subst hsame
        obtain ⟨other, hother, hvalue⟩ := hs.palletIndex cached stored hcached
        obtain rfl : other = d := Option.some.inj (hother.symm.trans hd)
        refine ⟨?_, hs⟩
        rw [hvalue, hwidth, hstored.2]
        rfl
      case isFalse => exact hread s hs

end RowContext

/-- A word of a pallet block that was written word by word. -/
theorem PalletTable.word_eq {t : PalletTable} {chunk i : Nat} {words : List UInt32}
    {word : UInt32} (hwords : words.flatMap wordBytes <+: t.bytes.drop chunk)
    (hword : words[i]? = some word) : t.word chunk i = .ok word := by
  obtain ⟨behind, hbytes⟩ := hwords
  have hi : i < words.length := (List.getElem?_eq_some_iff.mp hword).1
  have hsplit := eq_take_append_cons hword
  have hlength : (words.flatMap wordBytes).length = words.length * 4 :=
    length_flatMap_of_length length_wordBytes words
  have hsize := congrArg List.length hbytes
  rw [List.length_append, List.length_drop, hlength] at hsize
  have hinside : ¬ t.size < position chunk i + 4 := by
    unfold size position
    omega
  have hbefore : ((words.take i).flatMap wordBytes).length = i * 4 := by
    rw [length_flatMap_of_length length_wordBytes, List.length_take,
      Nat.min_eq_left (Nat.le_of_lt hi)]
  have hfound : (t.bytes.drop (position chunk i)).take 4 = wordBytes word := by
    unfold position
    rw [← List.drop_drop, ← hbytes, hsplit, List.flatMap_append, List.flatMap_cons,
      List.append_assoc, ← hbefore, List.drop_left, List.append_assoc, ← length_wordBytes word,
      List.take_left]
  unfold PalletTable.word
  rw [if_neg hinside, hfound, wordBytes, littleEndian_littleEndianBytes word.toNat_lt,
    UInt32.ofNat_toNat]
  rfl

/-- What a row has in one column: numbers, or the position of its words in the pallet block. In the
common block a row has its words under its key. -/
inductive Cell where
  | numbers (numbers : List Int)
  | index (index : Nat)
  | keyed

def Scalar.ofWord32 (kind : IntKind) (word : UInt32) : Scalar :=
  .int kind (word.toBitVec.setWidth kind.bits)

namespace Column

/-- Integers of the kind hold all that the column holds. Plain numbers are stored without a sign, so
that they have to be as wide as a kind that has one. -/
def Suits (kind : IntKind) : Column → Prop
  | plain width _ => width ≤ kind.bits ∧ (kind.signed = false ∨ width = kind.bits)
  | immediate width signed => width ≤ kind.bits ∧ kind.signed = signed
  | pallet .. | palletArray .. | common .. => kind.width = .w32

instance (kind : IntKind) : DecidablePred (Suits kind)
  | plain .. => inferInstanceAs (Decidable (_ ∧ _))
  | immediate .. => inferInstanceAs (Decidable (_ ∧ _))
  | pallet .. | palletArray .. | common .. => inferInstanceAs (Decidable (_ = _))

def Admits (kind : IntKind) : Column → Cell → Prop
  | plain width arity, .numbers numbers =>
    numbers.length = arity ∧ ∀ n ∈ numbers, Holdable width kind.signed n
  | immediate width signed, .numbers numbers =>
    numbers.length = 1 ∧ ∀ n ∈ numbers, Holdable width signed n
  | pallet _ words, .index i => i < words.length
  | palletArray _ _ tuples, .index i => i < tuples.length
  | common .., .keyed => True
  | _, _ => False

instance (kind : IntKind) : (column : Column) → DecidablePred (column.Admits kind)
  | plain .., .numbers _ | immediate .., .numbers _ => inferInstanceAs (Decidable (_ ∧ _))
  | pallet .., .index _ | palletArray .., .index _ => inferInstanceAs (Decidable (_ < _))
  | common .., .keyed => inferInstanceAs (Decidable True)
  | plain .., .index _ | plain .., .keyed | immediate .., .index _ | immediate .., .keyed
  | pallet .., .numbers _ | pallet .., .keyed | palletArray .., .numbers _
  | palletArray .., .keyed | common .., .numbers _ | common .., .index _ =>
    inferInstanceAs (Decidable False)

def fields (column : Column) : Cell → List BitField
  | .numbers numbers => numbers.map fun n => ⟨column.width, BitVec.ofInt column.width n⟩
  | .index i => [⟨column.width, BitVec.ofNat column.width i⟩]
  | .keyed => []

/-- What a cell stands for, in the record with the given key. -/
def scalars (kind : IntKind) (key : UInt32) : Column → Cell → List Scalar
  | _, .numbers numbers => numbers.map (Scalar.ofInt kind)
  | pallet _ words, .index i => words[i]?.toList.map (Scalar.ofWord32 kind)
  | palletArray _ _ tuples, .index i =>
    (tuples[i]?.toList.flatMap Vector.toList).map (Scalar.ofWord32 kind)
  | common default entries, .keyed =>
    [Scalar.ofWord32 kind ((KeyedWord.lookup? entries key).getD default)]
  | _, _ => []

theorem widthOf_fields {kind : IntKind} {column : Column} {cell : Cell}
    (h : column.Admits kind cell) :
    BitField.widthOf (column.fields cell) = column.recordWidth := by
  have hnumbers (width : Nat) (numbers : List Int) : BitField.widthOf
      (numbers.map fun n => ⟨width, BitVec.ofInt width n⟩) = width * numbers.length := by
    induction numbers with
    | nil => rfl
    | cons n numbers ih =>
        rw [List.map_cons, List.length_cons, Nat.mul_succ, ← ih]
        exact Nat.add_comm ..
  cases column with
  | plain width arity =>
      cases cell with
      | numbers numbers =>
          obtain ⟨rfl, _⟩ := h
          exact hnumbers width numbers
      | _ => exact h.elim
  | immediate width signed =>
      cases cell with
      | numbers numbers =>
          obtain ⟨hlength, _⟩ := h
          refine (hnumbers width numbers).trans ?_
          rw [hlength]
          exact Nat.mul_one width
      | _ => exact h.elim
  | pallet width words =>
      cases cell with
      | index i => rfl
      | _ => exact h.elim
  | palletArray width arity tuples =>
      cases cell with
      | index i => rfl
      | _ => exact h.elim
  | common default entries =>
      cases cell with
      | keyed => rfl
      | _ => exact h.elim

theorem length_scalars {kind : IntKind} {column : Column} {cell : Cell}
    (h : column.Admits kind cell) (key : UInt32) :
    (column.scalars kind key cell).length = column.arity := by
  cases column with
  | plain width arity =>
      cases cell with
      | numbers numbers =>
          obtain ⟨rfl, _⟩ := h
          exact List.length_map ..
      | _ => exact h.elim
  | immediate width signed =>
      cases cell with
      | numbers numbers =>
          obtain ⟨hlength, _⟩ := h
          exact (List.length_map ..).trans hlength
      | _ => exact h.elim
  | pallet width words =>
      cases cell with
      | index i =>
          have hi : i < words.length := h
          rw [scalars, List.getElem?_eq_getElem hi]
          rfl
      | _ => exact h.elim
  | palletArray width arity tuples =>
      cases cell with
      | index i =>
          have hi : i < tuples.length := h
          rw [scalars, List.getElem?_eq_getElem hi]
          simp [Column.arity]
      | _ => exact h.elim
  | common default entries =>
      cases cell with
      | keyed => rfl
      | _ => exact h.elim

/-- The column is the stored field at `index`, and its parts of the blocks are where the field says.
-/
structure PlacedIn (c : RowContext) (index offset : Nat) (offsets : ChunkOffsets)
    (column : Column) : Prop where
  descriptor : c.descriptors[index]? = some (column.descriptor offset offsets)
  pallet : column.palletBytes ≠ [] → ∃ t, c.pallet = some t ∧
    column.palletBytes <+: t.bytes.drop offsets.pallet
  common : ∀ key, (c.common.bind fun t => t.value? index key) = column.commonValue key

variable {c : RowContext} {data texts : Bytes} {index offset : Nat} {offsets : ChunkOffsets}

/-- Numbers in a row, from the element `first` of their column on. -/
theorem holds_numbers (hfixed : c.isVariable = false) {d : Descriptor}
    (hd : c.descriptors[index]? = some d) {signed : Bool}
    (hstorage : d.storage = .plain signed ∨ d.storage = .immediate signed) {kind : IntKind}
    (hpositive : 1 ≤ d.bitSize) (hwide : d.bitSize ≤ kind.bits)
    (hsign : signed = kind.signed ∨ d.bitSize = kind.bits) {numbers : List Int} (first : Nat)
    (hheld : ∀ n ∈ numbers, Holdable d.bitSize kind.signed n)
    (hstored : BitField.AllStored data (d.bitOffset + first * d.bitSize)
      (numbers.map fun n => ⟨d.bitSize, BitVec.ofInt d.bitSize n⟩)) :
    List.Forall₂ (Slot.Holds (RowState.Sound c data texts) c key (.int kind))
      ((List.range' first numbers.length).map fun element => ⟨index, element, false⟩)
      (numbers.map (Scalar.ofInt kind)) := by
  have hsmall := kind.bits_le
  induction numbers generalizing first with
  | nil => exact List.Forall₂.nil
  | cons n numbers ih =>
      obtain ⟨hfirst, hrest⟩ := hstored
      refine List.Forall₂.cons ?_ (ih (first + 1)
        (fun m hm => hheld m (List.mem_cons_of_mem _ hm)) ?_)
      · have hword : Gives (RowState.Sound c data texts) (c.inlineWord d first signed)
            (BitField.word ⟨d.bitSize, BitVec.ofInt d.bitSize n⟩ signed) :=
          RowContext.gives_inlineWord hfixed rfl hpositive (hwide.trans hsmall) hfirst signed
        have hscalar := Scalar.ofWord_word hpositive hwide
          (hheld n (List.mem_cons_self ..)) hsign
        unfold Slot.Holds RowContext.element
        rw [if_neg Bool.false_ne_true]
        refine (RowContext.gives_descriptor hd).bind ?_
        rcases hstorage with hstorage | hstorage <;>
          rw [hstorage] <;> exact hword.bind (gives_lift hscalar)
      · rw [Nat.succ_mul, ← Nat.add_assoc]
        exact hrest

theorem getElem?_flatMap_toList {arity : Nat} {tuples : List (Vector UInt32 arity)} {i : Nat}
    {t : Vector UInt32 arity} (ht : tuples[i]? = some t) {element : Nat} {word : UInt32}
    (hword : t.toList[element]? = some word) :
    (tuples.flatMap Vector.toList)[i * arity + element]? = some word := by
  have helement : element < arity := by
    have hlt := (List.getElem?_eq_some_iff.mp hword).1
    rwa [Vector.length_toList] at hlt
  induction tuples generalizing i with
  | nil => cases ht
  | cons first tuples ih =>
      rw [List.flatMap_cons]
      cases i with
      | zero =>
          cases ht
          rw [Nat.zero_mul, Nat.zero_add,
            List.getElem?_append_left (by rwa [Vector.length_toList]), hword]
      | succ i =>
          have hbehind : arity ≤ (i + 1) * arity + element := by
            rw [Nat.succ_mul]
            omega
          have hposition : (i + 1) * arity + element - arity = i * arity + element := by
            rw [Nat.succ_mul]
            omega
          rw [List.getElem?_append_right (by rwa [Vector.length_toList]), Vector.length_toList,
            hposition]
          exact ih ht

theorem PlacedIn.gives_palletWord {column : Column} (h : column.PlacedIn c index offset offsets)
    {I : RowState → Prop} {i : Nat} {word : UInt32} (hword : column.palletWords[i]? = some word)
    {kind : IntKind} (hwide : kind.width = .w32) :
    Gives I (do RowContext.wordScalar (← (← c.palletTable).word offsets.pallet i) (.int kind) :
      Decode Scalar) (Scalar.ofWord32 kind word) := by
  have hne : column.palletBytes ≠ [] := by
    intro hnil
    rw [eq_nil_of_flatMap (by decide) length_wordBytes hnil] at hword
    cases hword
  obtain ⟨t, ht, hprefix⟩ := h.pallet hne
  have htable : c.palletTable = .ok t := by
    unfold RowContext.palletTable
    rw [ht]
    rfl
  exact (gives_lift htable).bind ((gives_lift (PalletTable.word_eq hprefix hword)).bind
    (RowContext.gives_wordScalar kind word hwide))

theorem toNat_word_ofNat {width i : Nat} (hsmall : width ≤ 64) (hi : i < 2 ^ width) :
    (BitField.word ⟨width, BitVec.ofNat width i⟩ false).toNat = i := by
  have hwide : i < 2 ^ 64 := Nat.lt_of_lt_of_le hi (Nat.pow_le_pow_right (by decide) hsmall)
  change ((BitVec.ofNat width i).setWidth 64).toNat = i
  rw [BitVec.toNat_setWidth, BitVec.toNat_ofNat, Nat.mod_eq_of_lt hi, Nat.mod_eq_of_lt hwide]

theorem holds_pallet (hfixed : c.isVariable = false) {width : Nat} {words : List UInt32}
    (hplaced : (pallet width words).PlacedIn c index offset offsets)
    (hvalid : (pallet width words).Valid) {kind : IntKind} (hwide : kind.width = .w32) {i : Nat}
    (hi : i < words.length)
    (hstored : BitField.StoredAt data offset ⟨width, BitVec.ofNat width i⟩)
    (key : Option UInt32) :
    List.Forall₂ (Slot.Holds (RowState.Sound c data texts) c key (.int kind))
      [Slot.mk index 0 false] (words[i]?.toList.map (Scalar.ofWord32 kind)) := by
  obtain ⟨⟨hpositive, hsmall⟩, hindexes⟩ := hvalid
  have hword : words[i]? = some words[i] := List.getElem?_eq_getElem hi
  have hfirst : BitField.StoredAt data (offset + 0 * width) ⟨width, BitVec.ofNat width i⟩ := by
    rw [Nat.zero_mul, Nat.add_zero]
    exact hstored
  have hindex : Gives (RowState.Sound c data texts)
      (c.inlineWord ((pallet width words).descriptor offset offsets) 0 false)
      (BitField.word ⟨width, BitVec.ofNat width i⟩ false) :=
    RowContext.gives_inlineWord hfixed rfl hpositive hsmall hfirst false
  rw [hword]
  refine List.Forall₂.cons ?_ List.Forall₂.nil
  unfold Slot.Holds RowContext.element
  rw [if_neg Bool.false_ne_true]
  refine (RowContext.gives_descriptor hplaced.descriptor).bind (hindex.bind ?_)
  rw [toNat_word_ofNat hsmall (by omega)]
  exact hplaced.gives_palletWord hword hwide

/-- The index in the row is that of a tuple, which gives one element for each of its words. -/
theorem holds_palletArray (hfixed : c.isVariable = false) {width arity : Nat}
    {tuples : List (Vector UInt32 arity)}
    (hplaced : (palletArray width arity tuples).PlacedIn c index offset offsets)
    (hvalid : (palletArray width arity tuples).Valid)
    (hfits : (palletArray width arity tuples).FitsAt offset offsets) {kind : IntKind}
    (hwide : kind.width = .w32) {i : Nat} (hi : i < tuples.length)
    (hstored : BitField.StoredAt data offset ⟨width, BitVec.ofNat width i⟩)
    (key : Option UInt32) :
    List.Forall₂ (Slot.Holds (RowState.Sound c data texts) c key (.int kind))
      ((List.range' 0 arity).map fun element => Slot.mk index element false)
      ((tuples[i]?.toList.flatMap Vector.toList).map (Scalar.ofWord32 kind)) := by
  obtain ⟨⟨hpositive, hsmall⟩, _, hindexes⟩ := hvalid
  have hd := hplaced.descriptor
  have htuple : tuples[i]? = some tuples[i] := List.getElem?_eq_getElem hi
  have hbytes : (palletArray width arity tuples).palletBytes.length =
      (tuples.flatMap Vector.toList).length * 4 :=
    length_flatMap_of_length length_wordBytes _
  have hpallet := hfits.pallet
  have hindex : Gives (RowState.Sound c data texts) (c.palletArrayIndex index
      ((palletArray width arity tuples).descriptor offset offsets))
      (BitVec.ofNat width i).toNat :=
    RowContext.gives_palletArrayIndex (f := ⟨width, BitVec.ofNat width i⟩) hfixed hd rfl
      hpositive hsmall hstored
  rw [BitVec.toNat_ofNat, Nat.mod_eq_of_lt (by omega)] at hindex
  rw [htuple, Option.toList_some, List.flatMap_singleton]
  refine forall₂_range'_map (Vector.length_toList ..) fun element word hword => ?_
  have hfound := getElem?_flatMap_toList htuple hword
  have hslot : ¬ positionLimit ≤ i * arity + element := by
    have hlt := (List.getElem?_eq_some_iff.mp hfound).1
    simp only [positionLimit, wordLimit] at hpallet ⊢
    omega
  unfold Slot.Holds RowContext.element
  rw [if_neg Bool.false_ne_true, Nat.zero_add]
  refine (RowContext.gives_descriptor hd).bind (hindex.bind ?_)
  change Gives _ (if positionLimit ≤ i * arity + element then _ else _) _
  rw [if_neg hslot]
  exact hplaced.gives_palletWord hfound hwide

theorem holds_common {I : RowState → Prop} {default : UInt32} {entries : List KeyedWord}
    (hplaced : (common default entries).PlacedIn c index offset offsets) {kind : IntKind}
    (hwide : kind.width = .w32) (key : UInt32) :
    List.Forall₂ (Slot.Holds I c (some key) (.int kind)) [Slot.mk index 0 true]
      [Scalar.ofWord32 kind ((KeyedWord.lookup? entries key).getD default)] := by
  have hown : (c.common.bind fun table => (some key).bind fun key => table.value? index key) =
      KeyedWord.lookup? entries key := hplaced.common key
  refine List.Forall₂.cons ?_ List.Forall₂.nil
  unfold Slot.Holds RowContext.commonElement
  rw [if_pos rfl]
  refine (RowContext.gives_descriptor hplaced.descriptor).bind ?_
  change Gives _ (RowContext.wordScalar ((c.common.bind fun table =>
    (some key).bind fun key => table.value? index key).getD default) _) _
  rw [hown]
  exact RowContext.gives_wordScalar kind _ hwide

/-- Each slot of a column holds what the cell of the column stands for. -/
theorem holds_slots {column : Column} (hfixed : c.isVariable = false)
    (hplaced : column.PlacedIn c index offset offsets) (hvalid : column.Valid)
    (hfits : column.FitsAt offset offsets) {kind : IntKind} (hsuits : column.Suits kind)
    {cell : Cell} (hadmits : column.Admits kind cell)
    (hstored : BitField.AllStored data offset (column.fields cell)) (key : UInt32) :
    List.Forall₂ (Slot.Holds (RowState.Sound c data texts) c (some key) (.int kind))
      (SlotRun.ofDescriptor (column.descriptor offset offsets) index).slots
      (column.scalars kind key cell) := by
  have hd := hplaced.descriptor
  -- A cell of another shape than its column is not admitted.
  cases column with
  | plain width arity =>
      obtain ⟨⟨hpositive, hsmall⟩, _⟩ := hvalid
      obtain ⟨hwide, hsign⟩ := hsuits
      cases cell with
      | numbers numbers =>
          obtain ⟨rfl, hheld⟩ := hadmits
          refine holds_numbers hfixed hd (Or.inl rfl) hpositive hwide ?_ 0 hheld ?_
          · exact hsign.imp Eq.symm id
          · change BitField.AllStored data (offset + 0 * width) _
            rw [Nat.zero_mul, Nat.add_zero]
            exact hstored
      | _ => exact hadmits.elim
  | immediate width signed =>
      obtain ⟨hpositive, hsmall⟩ := hvalid
      obtain ⟨hwide, hsign⟩ := hsuits
      cases cell with
      | numbers numbers =>
          obtain ⟨hlength, hheld⟩ := hadmits
          subst hsign
          have hslots : (SlotRun.ofDescriptor ((immediate width kind.signed).descriptor offset
              offsets) index).slots =
                (List.range' 0 numbers.length).map fun element => ⟨index, element, false⟩ := by
            rw [hlength]
            rfl
          rw [hslots]
          refine holds_numbers hfixed hd (Or.inr rfl) hpositive hwide (Or.inl rfl) 0 hheld ?_
          change BitField.AllStored data (offset + 0 * width) _
          rw [Nat.zero_mul, Nat.add_zero]
          exact hstored
      | _ => exact hadmits.elim
  | pallet width words =>
      cases cell with
      | index i => exact holds_pallet hfixed hplaced hvalid hsuits hadmits hstored.1 (some key)
      | _ => exact hadmits.elim
  | palletArray width arity tuples =>
      cases cell with
      | index i =>
          exact holds_palletArray hfixed hplaced hvalid hfits hsuits hadmits hstored.1 (some key)
      | _ => exact hadmits.elim
  | common default entries =>
      cases cell with
      | keyed => exact holds_common hplaced hsuits key
      | _ => exact hadmits.elim

end Column

end ClientTable
