import ClientTable.Proofs.SchemaPrefix
import ClientTable.Proofs.SimpleRows

namespace ClientTable

open Attempt

namespace Field

variable {fields : List Field} {f : Field} {i j element : Nat}

/-- The first bit of the field at a position, if nothing is between the fields. -/
def startOf (fields : List Field) (position : Nat) : Nat :=
  widthOf (fields.take position)

/-- The first bit of an element of the field at a position. -/
def placeOf (fields : List Field) (position : Nat) (f : Field) (element : Nat) : Nat :=
  startOf fields position + element * f.kind.bits

theorem startOf_succ (hf : fields[i]? = some f) :
    startOf fields (i + 1) = startOf fields i + f.width := by
  unfold startOf widthOf
  rw [List.take_add_one, hf, Option.toList_some, List.map_append, total_append]
  rfl

theorem startOf_mono (hle : i ≤ j) : startOf fields i ≤ startOf fields j := by
  have hsplit : fields.take j = fields.take i ++ (fields.drop i).take (j - i) := by
    rw [← List.take_add, Nat.add_sub_cancel' hle]
  unfold startOf widthOf
  rw [hsplit, List.map_append, total_append]
  exact Nat.le_add_right ..

theorem startOf_add_width_le (hf : fields[i]? = some f) (hlt : i < j) :
    startOf fields i + f.width ≤ startOf fields j := by
  rw [← startOf_succ hf]
  exact startOf_mono hlt

theorem startOf_le_widthOf (fields : List Field) (i : Nat) : startOf fields i ≤ widthOf fields := by
  have hall : startOf fields (max i fields.length) = widthOf fields := by
    rw [startOf, List.take_of_length_le (Nat.le_max_right ..)]
  exact hall ▸ startOf_mono (Nat.le_max_left ..)

theorem startOf_add_width_le_widthOf (hf : fields[i]? = some f) :
    startOf fields i + f.width ≤ widthOf fields := by
  rw [← startOf_succ hf]
  exact startOf_le_widthOf fields (i + 1)

/-- The elements before another one end where that starts. -/
theorem place_le {count : Nat} (hlt : element < count) (size : Nat) :
    element * size + size ≤ count * size := by
  rw [← Nat.succ_mul]
  exact Nat.mul_le_mul_right size hlt

theorem placeOf_add_bits_le (fields : List Field) (i : Nat) (helement : element < f.arity) :
    placeOf fields i f element + f.kind.bits ≤ startOf fields i + f.width := by
  have hle := place_le helement f.kind.bits
  rw [Nat.mul_comm f.arity] at hle
  unfold placeOf width
  omega

/-- All elements lie before the end of the last field, and no two have a bit in common. -/
def PlacesApart (fields : List Field) : Prop :=
  ∀ (i : Nat) (f : Field) (element : Nat), fields[i]? = some f → element < f.arity →
    placeOf fields i f element + f.kind.bits ≤ widthOf fields ∧
    ∀ (j : Nat) (g : Field) (other : Nat), fields[j]? = some g → other < g.arity →
      (i, element) ≠ (j, other) →
      placeOf fields i f element + f.kind.bits ≤ placeOf fields j g other ∨
        placeOf fields j g other + g.kind.bits ≤ placeOf fields i f element

theorem placesApart (fields : List Field) : PlacesApart fields := by
  intro i f element hf helement
  refine ⟨(placeOf_add_bits_le fields i helement).trans (startOf_add_width_le_widthOf hf), ?_⟩
  intro j g other hg hother hne
  have hstop := placeOf_add_bits_le fields i helement
  have hotherStop := placeOf_add_bits_le fields j hother
  rcases Nat.lt_trichotomy i j with hlt | rfl | hlt
  · have hbehind := startOf_add_width_le hf hlt
    unfold placeOf at *
    omega
  · obtain rfl : f = g := Option.some.inj (hf.symm.trans hg)
    have hdistinct : element ≠ other := fun h => hne (congrArg (Prod.mk i) h)
    unfold placeOf
    rcases Nat.lt_or_gt_of_ne hdistinct with hlt | hlt
    · have hle := place_le hlt f.kind.bits
      omega
    · have hle := place_le hlt f.kind.bits
      omega
  · have hbehind := startOf_add_width_le hg hlt
    unfold placeOf at *
    omega

end Field

namespace Descriptor

variable {fields : List Field} {f : Field} {i offset : Nat}

theorem length_consecutive (offset : Nat) (fields : List Field) :
    (consecutive offset fields).length = fields.length := by
  induction fields generalizing offset with
  | nil => rfl
  | cons f fields ih => exact congrArg (· + 1) (ih _)

/-- Each field starts where those before it end, or at the last bit that a 32-bit number can name.
-/
theorem getElem?_consecutive (hoffset : offset ≤ offsetLimit) (hf : fields[i]? = some f) :
    (consecutive offset fields)[i]? =
      some ⟨min (offset + Field.startOf fields i) offsetLimit, f.kind.bits, f.arity,
        .plain f.kind.isSigned⟩ := by
  induction fields generalizing offset i with
  | nil => cases hf
  | cons first fields ih =>
      cases i with
      | zero =>
          cases hf
          change some _ = some (Descriptor.mk (min (offset + 0) offsetLimit) _ _ _)
          rw [Nat.add_zero, Nat.min_eq_left hoffset]
      | succ i =>
          have hstart : Field.startOf (first :: fields) (i + 1) =
              first.width + Field.startOf fields i := rfl
          have hnext : min (min (offset + min first.width offsetLimit) offsetLimit +
              Field.startOf fields i) offsetLimit =
                min (offset + (first.width + Field.startOf fields i)) offsetLimit := by
            omega
          rw [hstart, ← hnext]
          exact ih (Nat.min_le_right ..) hf

theorem checkWidth_of_lt {h : Header} (hfixed : h.hasOffsetMap = false)
    (hlt : h.recordBits < Field.widthOf fields) :
    checkWidth h (consecutive 0 fields) =
      .error (.invalid (.fieldsExceedRecord (Field.widthOf fields) h.recordBits)) := by
  obtain ⟨hsum, hstop⟩ := bitStop_consecutive 0 fields
  have hreach {stored : List Descriptor} (hstored : stored ⊆ consecutive 0 fields) :
      (stored.map bitStop).foldl max 0 ≤ Field.widthOf fields := by
    apply foldl_max_le (Nat.zero_le _)
    intro stop hmem
    obtain ⟨d, hd, rfl⟩ := List.mem_map.mp hmem
    exact (hstop d (hstored hd)).trans_eq (Nat.zero_add _)
  unfold checkWidth
  rw [hfixed, if_neg Bool.false_ne_true]
  dsimp only
  rw [hsum, if_pos (Or.inr hlt), Nat.max_eq_right (hreach (List.filter_subset_self _))]
  rfl

/-- Records have to hold all fields, unless they vary in length. -/
def HasRoom (h : Header) (fields : List Field) : Prop :=
  h.hasOffsetMap = true ∨ Field.widthOf fields ≤ h.recordBits

theorem checkWidth_of_hasRoom {h : Header} (hroom : HasRoom h fields) :
    checkWidth h (consecutive 0 fields) = .ok () := by
  rcases hroom with hvariable | hle
  · unfold checkWidth
    rw [hvariable, if_pos rfl]
    rfl
  · obtain ⟨hsum, hstop⟩ := bitStop_consecutive 0 fields
    apply checkWidth_of_le (hsum.trans_le hle)
    intro d hd _
    exact (hstop d hd).trans (by rwa [Nat.zero_add])

/-- The descriptors are those of fields with nothing between them. Where a 32-bit number can say
where a field starts, those before it end there, and each of its elements is read from its own
place. -/
structure StandInOrder (fields : List Field) (descriptors : List Descriptor) : Prop where
  length : descriptors.length = fields.length
  each : ∀ (i : Nat) (f : Field), fields[i]? = some f →
    descriptors[i]? = some ⟨min (Field.startOf fields i) offsetLimit, f.kind.bits, f.arity,
      .plain f.kind.isSigned⟩
  apart : ∀ (i j : Nat) (d e : Descriptor), i < j → descriptors[i]? = some d →
    descriptors[j]? = some e → Field.startOf fields j < wordLimit → d.bitStop ≤ e.bitOffset
  reads : ∀ (c : RowContext) (strings : Bytes), c.descriptors = descriptors →
    c.isVariable = false → c.hasRelativeStrings = false → strings.length < wordLimit →
    ∀ (i : Nat) (f : Field) (element : Nat) (cell : SimpleCell) (data : Bytes),
      fields[i]? = some f → Field.startOf fields i < wordLimit → cell.kind = f.kind →
      cell.InBlock strings →
      cell.field.StoredAt data (Field.placeOf fields i f element) →
      Gives (RowState.Sound c data strings) (c.element i element f.kind) cell.scalar

theorem standInOrder_consecutive (fields : List Field) :
    StandInOrder fields (consecutive 0 fields) := by
  have heach (i : Nat) (f : Field) (hf : fields[i]? = some f) : (consecutive 0 fields)[i]? =
      some ⟨min (Field.startOf fields i) offsetLimit, f.kind.bits, f.arity,
        .plain f.kind.isSigned⟩ := by
    rw [getElem?_consecutive (Nat.zero_le _) hf, Nat.zero_add]
  have hfield {i : Nat} {d : Descriptor} (hd : (consecutive 0 fields)[i]? = some d) :
      ∃ f, fields[i]? = some f ∧ d = ⟨min (Field.startOf fields i) offsetLimit, f.kind.bits,
        f.arity, .plain f.kind.isSigned⟩ := by
    obtain ⟨hlt, -⟩ := List.getElem?_eq_some_iff.mp hd
    rw [length_consecutive] at hlt
    have hf := List.getElem?_eq_getElem hlt
    exact ⟨fields[i], hf, Option.some.inj (hd.symm.trans (heach i _ hf))⟩
  refine ⟨length_consecutive 0 fields, heach, ?_, ?_⟩
  · intro i j d e hlt hd he hword
    obtain ⟨f, hf, rfl⟩ := hfield hd
    obtain ⟨g, -, rfl⟩ := hfield he
    have hbehind := Field.startOf_add_width_le hf hlt
    change min (Field.startOf fields i) offsetLimit + f.width ≤
      min (Field.startOf fields j) offsetLimit
    unfold offsetLimit
    omega
  · intro c strings hdescriptors hfixed habsolute hblock i f element cell data hf hword hkind
      htext hstored
    have hexact : min (Field.startOf fields i) offsetLimit = Field.startOf fields i :=
      Nat.min_eq_left (Nat.le_pred_of_lt hword)
    have hd := heach i f hf
    rw [← hdescriptors, hexact, ← hkind] at hd
    rw [Field.placeOf, ← hkind] at hstored
    rw [← hkind]
    exact SimpleCell.gives_element hfixed habsolute hblock htext hd hstored

/-- Where a file does not describe its fields, the schema is refused if records have no room for all
fields, and else the fields stand in order. In records of fewer bits than 32-bit numbers count they
then start at such numbers, all of them. -/
theorem fields_in_order {source : Source} {h : Header} {layout : Layout} {schema : Schema}
    (hsimple : h.signature = .wdbc ∨ h.signature = .wdb2) (hplan : Layout.plan h = .ok layout)
    (handed : Nat) :
    (¬ HasRoom h schema.fields → ((readAll source h layout schema).on handed).1 =
      .error (.invalid (.fieldsExceedRecord (Field.widthOf schema.fields) h.recordBits))) ∧
    (HasRoom h schema.fields → ∃ descriptors,
      ((readAll source h layout schema).on handed).1 = .ok descriptors ∧
      StandInOrder schema.fields descriptors ∧
      (h.hasOffsetMap = false → h.recordBits < wordLimit →
        ∀ i, Field.startOf schema.fields i < wordLimit)) ∧
    Field.PlacesApart schema.fields := by
  obtain ⟨habsent, -⟩ := Layout.absent_of_plan_simple hsimple hplan
  rw [on_readAll_of_simple hsimple habsent]
  refine ⟨fun hnone => ?_, fun hroom => ?_, Field.placesApart schema.fields⟩
  · obtain ⟨hfixed, hlt⟩ := not_or.mp hnone
    rw [checkWidth_of_lt (Bool.eq_false_iff.mpr hfixed) (Nat.lt_of_not_le hlt)]
    rfl
  · rw [checkWidth_of_hasRoom hroom]
    refine ⟨_, rfl, standInOrder_consecutive schema.fields, fun hfixed hshort i => ?_⟩
    have hwidth := hroom.resolve_left (Bool.eq_false_iff.mp hfixed)
    have hstart := Field.startOf_le_widthOf schema.fields i
    omega

def oneRecord (recordSize : UInt32) : Header :=
  { Header.basic .wdbc 1 2 recordSize 0 with headerEnd := 20 }

theorem fields_in_order_elevenBytes :
    let schema : Schema := ⟨[.array "a" .u8 3, .scalar "b" .i64]⟩
    (oneRecord 11).signature = .wdbc ∧ HasRoom (oneRecord 11) schema.fields ∧
      ¬ HasRoom (oneRecord 10) schema.fields ∧
    ∃ layout refusing, Layout.plan (oneRecord 11) = .ok layout ∧
      Layout.plan (oneRecord 10) = .ok refusing ∧
      (∃ descriptors, ((readAll (.memory []) (oneRecord 11) layout schema).on 0).1 =
        .ok descriptors ∧ StandInOrder schema.fields descriptors ∧
        ((oneRecord 11).hasOffsetMap = false → (oneRecord 11).recordBits < wordLimit →
          ∀ i, Field.startOf schema.fields i < wordLimit)) ∧
      ((readAll (.memory []) (oneRecord 10) refusing schema).on 0).1 =
        .error (.invalid (.fieldsExceedRecord 88 80)) := by
  have hroom : HasRoom (oneRecord 11) [.array "a" .u8 3, .scalar "b" .i64] := Or.inr (by decide)
  have hnone : ¬ HasRoom (oneRecord 10) [.array "a" .u8 3, .scalar "b" .i64] := by
    rintro (hvariable | hle)
    · exact Bool.false_ne_true hvariable
    · exact absurd hle (by decide)
  refine ⟨rfl, hroom, hnone, _, _, rfl, rfl, ?_, ?_⟩
  · exact (fields_in_order (Or.inl rfl) rfl 0).2.1 hroom
  · exact (fields_in_order (Or.inl rfl) rfl 0).1 hnone

/-- So many large numbers that no 32-bit number counts their bits, and behind them a small one,
which starts at a bit of theirs. -/
theorem fields_overlap :
    let schema : Schema := ⟨[.array "a" .u64 67108865, .scalar "b" .u8]⟩
    ∃ layout first second, Layout.plan (oneRecord 0xFFFFFFFF) = .ok layout ∧
      ((readAll (.memory []) (oneRecord 0xFFFFFFFF) layout schema).on 0).1 =
        .ok [first, second] ∧
      second.bitOffset = 4294967295 ∧ Field.startOf schema.fields 1 = 4294967360 ∧
      first.bitOffset ≤ second.bitOffset ∧ second.bitOffset < first.bitStop := by
  refine ⟨_, ⟨0, 64, 67108865, .plain false⟩, ⟨4294967295, 8, 1, .plain false⟩, rfl, ?_⟩
  decide +kernel

end Descriptor

end ClientTable
