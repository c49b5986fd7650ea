import ClientTable.Mapping
import ClientTable.Proofs.Attempt

/-!
The fields of a schema take the stored elements in order, as many as they have elements. Where every
field has as many as the stored field in its place, it is fed with all the elements of that stored
field.
-/

namespace ClientTable

open Attempt

namespace SlotRun

/-- The runs of descriptors that are numbered from `index` on. -/
def runsFrom (index : Nat) (descriptors : List Descriptor) : List SlotRun :=
  (descriptors.zipIdx index).map fun (d, index) => ofDescriptor d index

theorem runsFrom_cons (index : Nat) (d : Descriptor) (descriptors : List Descriptor) :
    runsFrom index (d :: descriptors) = ofDescriptor d index :: runsFrom (index + 1) descriptors :=
  rfl

theorem runsFrom_append (index : Nat) (descriptors others : List Descriptor) :
    runsFrom index (descriptors ++ others) =
      runsFrom index descriptors ++ runsFrom (index + descriptors.length) others := by
  unfold runsFrom
  rw [List.zipIdx_append, List.map_append]

theorem count_pos_of_mem_runsFrom {index : Nat} {descriptors : List Descriptor}
    (h : ∀ d ∈ descriptors, 0 < d.cardinality) : ∀ r ∈ runsFrom index descriptors, 0 < r.count := by
  intro r hr
  obtain ⟨⟨d, _⟩, hd, rfl⟩ := List.mem_map.mp hr
  exact h d (List.fst_mem_of_mem_zipIdx hd)

theorem takeSlots_zero {runs : List SlotRun} (h : ∀ r ∈ runs, 0 < r.count) :
    takeSlots 0 runs = ([], runs) := by
  cases runs with
  | nil => rfl
  | cons r runs =>
      rw [takeSlots, if_pos (h r (List.mem_cons_self ..))]
      rfl

theorem takeSlots_count (r : SlotRun) {runs : List SlotRun} (h : ∀ r ∈ runs, 0 < r.count) :
    takeSlots r.count (r :: runs) = (r.slots, runs) := by
  rw [takeSlots, if_neg (Nat.lt_irrefl _), Nat.sub_self, takeSlots_zero h]
  exact congrArg (·, runs) (List.append_nil _)

theorem length_flatten (runs : List SlotRun) : (flatten runs).length = size runs := by
  induction runs with
  | nil => rfl
  | cons r runs ih =>
      rw [flatten, List.flatMap_cons, List.length_append, slots, length_front, size, List.map_cons,
        total_cons]
      exact congrArg (r.count + ·) ih

theorem flatten_append (runs more : List SlotRun) :
    flatten (runs ++ more) = flatten runs ++ flatten more :=
  List.flatMap_append

theorem takeSlots_of_flatten {runs : List SlotRun} {taken left : List Slot}
    (h : flatten runs = taken ++ left) :
    (takeSlots taken.length runs).1 = taken ∧ flatten (takeSlots taken.length runs).2 = left := by
  apply List.append_inj ((takeSlots_append taken.length runs).trans h)
  rw [length_takeSlots, ← length_flatten, h, List.length_append]
  exact Nat.min_eq_left (Nat.le_add_right ..)

end SlotRun

/-- A field that is one element, which stands in the record or in the index table. -/
def FieldPlan.IsSingle (p : FieldPlan) : Prop :=
  p.isArray = false ∧ p.source.slotList.any Slot.isCommon = false

namespace Mapping

/-- What feeds the fields from a position on, where they take slots from the front of a list. -/
inductive Feeds (indexField? : Option Nat) :
    Nat → List Field → List Slot → List FieldPlan → Prop where
  | nil (position : Nat) (slots : List Slot) : Feeds indexField? position [] slots []
  | indexed {position : Nat} {f : Field} {fields : List Field} {slots : List Slot}
      {plans : List FieldPlan} (hposition : indexField? = some position)
      (hrest : Feeds indexField? (position + 1) fields slots plans) :
      Feeds indexField? position (f :: fields) slots (⟨f.kind, false, .indexTable⟩ :: plans)
  | stored {position : Nat} {f : Field} {fields : List Field} {taken left : List Slot}
      {plans : List FieldPlan} (hposition : indexField? ≠ some position)
      (hlength : taken.length = f.arity)
      (hrest : Feeds indexField? (position + 1) fields left plans) :
      Feeds indexField? position (f :: fields) (taken ++ left)
        (⟨f.kind, f.isArray, .slots taken⟩ :: plans)

theorem feeds_of_assign {indexField? : Option Nat} {position : Nat} {fields : List Field}
    {runs : List SlotRun} {plans : List FieldPlan}
    (h : assign indexField? position fields runs = .ok plans) :
    Feeds indexField? position fields (SlotRun.flatten runs) plans := by
  induction fields generalizing position runs plans with
  | nil =>
      cases h
      exact Feeds.nil position _
  | cons f fields ih =>
      unfold assign at h
      split at h
      case isTrue hposition =>
        obtain ⟨others, hothers, h⟩ := bind_eq_ok.mp h
        cases h
        exact Feeds.indexed hposition (ih hothers)
      case isFalse hposition =>
        split at h
        case isTrue => cases h
        case isFalse henough =>
          obtain ⟨others, hothers, h⟩ := bind_eq_ok.mp h
          cases h
          rw [← SlotRun.takeSlots_append f.arity runs]
          refine Feeds.stored hposition ?_ (ih hothers)
          rw [SlotRun.length_takeSlots]
          exact Nat.min_eq_left (Nat.not_lt.mp henough)

theorem assign_of_feeds {indexField? : Option Nat} {position : Nat} {fields : List Field}
    {slots : List Slot} {plans : List FieldPlan} (h : Feeds indexField? position fields slots plans)
    {runs : List SlotRun} (hruns : SlotRun.flatten runs = slots) :
    assign indexField? position fields runs = .ok plans := by
  induction h generalizing runs with
  | nil => rfl
  | indexed hposition _ ih =>
      rw [assign, if_pos hposition, ih hruns]
      rfl
  | @stored position f fields taken left plans hposition hlength _ ih =>
      obtain ⟨htaken, hleft⟩ := SlotRun.takeSlots_of_flatten hruns
      have henough : ¬ SlotRun.size runs < f.arity := by
        rw [← SlotRun.length_flatten, hruns, List.length_append]
        omega
      rw [assign, if_neg hposition, if_neg henough]
      rw [hlength] at htaken hleft
      dsimp only
      rw [ih hleft, htaken]
      rfl

/-- What feeds the field at a position: the index table, or as many slots as it has elements. -/
def Serves (indexField? : Option Nat) (position : Nat) (f : Field) (p : FieldPlan) : Prop :=
  if indexField? = some position then p = ⟨f.kind, false, .indexTable⟩
  else ∃ slots, p = ⟨f.kind, f.isArray, .slots slots⟩ ∧ slots.length = f.arity

namespace Feeds

variable {indexField? : Option Nat} {position : Nat} {fields : List Field} {slots : List Slot}
  {plans : List FieldPlan}

theorem length_eq (h : Feeds indexField? position fields slots plans) :
    plans.length = fields.length := by
  induction h with
  | nil => rfl
  | indexed _ _ ih => exact congrArg Nat.succ ih
  | stored _ _ _ ih => exact congrArg Nat.succ ih

theorem serves (h : Feeds indexField? position fields slots plans) {i : Nat} {f : Field}
    (hf : fields[i]? = some f) :
    ∃ p, plans[i]? = some p ∧ Serves indexField? (position + i) f p := by
  induction h generalizing i with
  | nil => cases hf
  | @indexed position g fields slots plans hposition _ ih =>
      cases i with
      | zero =>
          cases hf
          refine ⟨_, rfl, ?_⟩
          rw [Serves, Nat.add_zero, if_pos hposition]
      | succ i =>
          obtain ⟨p, hp, hserves⟩ := ih hf
          rw [Nat.add_right_comm] at hserves
          exact ⟨p, hp, hserves⟩
  | @stored position g fields taken left plans hposition hlength _ ih =>
      cases i with
      | zero =>
          cases hf
          refine ⟨_, rfl, ?_⟩
          rw [Serves, Nat.add_zero, if_neg hposition]
          exact ⟨taken, rfl, hlength⟩
      | succ i =>
          obtain ⟨p, hp, hserves⟩ := ih hf
          rw [Nat.add_right_comm] at hserves
          exact ⟨p, hp, hserves⟩

/-- The fields take the slots in order, from the first on. -/
theorem exists_append (h : Feeds indexField? position fields slots plans) :
    ∃ left, (plans.flatMap fun p => p.source.slotList) ++ left = slots := by
  induction h with
  | nil position slots => exact ⟨slots, rfl⟩
  | indexed _ _ ih => exact ih
  | stored _ _ _ ih =>
      obtain ⟨left, rfl⟩ := ih
      exact ⟨left, List.append_assoc ..⟩

end Feeds

/-- A mapping that can be built, with its parts. -/
structure Built (schema : Schema) (descriptors : List Descriptor) (column : Nat)
    (hasIndexTable : Bool) (m : Mapping) : Prop where
  fields : assign (if hasIndexTable then some column else none) 0 schema.fields
    (SlotRun.runsFrom 0 descriptors) = .ok m.fields
  keyField : m.keyField? =
    if hasIndexTable then some column else m.fields.findIdx? (FieldPlan.startsAt column)
  keyDescriptor : m.keyDescriptor? =
    if hasIndexTable then none
    else if column < descriptors.length then some column else none
  inside : hasIndexTable = true → column < schema.fields.length

theorem built_of_build {schema : Schema} {descriptors : List Descriptor} {column : Nat}
    {hasIndexTable : Bool} {m : Mapping}
    (h : build schema descriptors column hasIndexTable = .ok m) :
    Built schema descriptors column hasIndexTable m := by
  cases hasIndexTable with
  | true =>
      obtain ⟨_, hcheck, h⟩ := bind_eq_ok.mp h
      obtain ⟨fields, hassign, h⟩ := bind_eq_ok.mp h
      cases h
      refine ⟨hassign, rfl, rfl, fun _ => ?_⟩
      unfold checkIndexField at hcheck
      cases hf : schema.fields[column]? with
      | none =>
          rw [hf] at hcheck
          cases hcheck
      | some f => exact (List.getElem?_eq_some_iff.mp hf).1
  | false =>
      obtain ⟨fields, hassign, h⟩ := bind_eq_ok.mp h
      cases h
      exact ⟨hassign, rfl, rfl, nofun⟩

theorem Built.feeds {schema : Schema} {descriptors : List Descriptor} {column : Nat}
    {hasIndexTable : Bool} {m : Mapping} (h : Built schema descriptors column hasIndexTable m) :
    Feeds (if hasIndexTable then some column else none) 0 schema.fields
      (SlotRun.flatten (SlotRun.ofDescriptors descriptors)) m.fields :=
  feeds_of_assign h.fields

def slots (m : Mapping) : List Slot :=
  m.fields.flatMap fun p => p.source.slotList

theorem Built.slots_append {schema : Schema} {descriptors : List Descriptor} {column : Nat}
    {hasIndexTable : Bool} {m : Mapping} (h : Built schema descriptors column hasIndexTable m) :
    ∃ left, m.slots ++ left = SlotRun.flatten (SlotRun.ofDescriptors descriptors) :=
  h.feeds.exists_append

/-- A field and the stored field in its place have as many elements. -/
def Fits (f : Field) (d : Descriptor) : Prop :=
  f.arity = d.cardinality

theorem cardinality_pos {fields : List Field} {descriptors : List Descriptor}
    (hfits : List.Forall₂ Fits fields descriptors) : ∀ d ∈ descriptors, 0 < d.cardinality := by
  induction hfits with
  | nil => exact nofun
  | @cons f d _ _ hfit _ ih =>
      rintro other (_ | ⟨_, hother⟩)
      · rw [← show f.arity = d.cardinality from hfit]
        exact f.arity_pos
      · exact ih other hother

/-- Each field fed with all the elements of the stored field in its place. -/
def plansFrom : (index : Nat) → List Field → List Descriptor → List FieldPlan
  | index, f :: fields, d :: descriptors =>
    ⟨f.kind, f.isArray, .slots (SlotRun.ofDescriptor d index).slots⟩ ::
      plansFrom (index + 1) fields descriptors
  | _, _, _ => []

theorem any_isCommon_of_mem_plansFrom {index : Nat} {fields : List Field}
    {descriptors : List Descriptor} (h : ∀ d ∈ descriptors, d.isCommon = false) :
    ∀ p ∈ plansFrom index fields descriptors, p.source.slotList.any Slot.isCommon = false := by
  induction descriptors generalizing index fields with
  | nil => cases fields <;> nofun
  | cons d descriptors ih =>
      cases fields with
      | nil => nofun
      | cons f fields =>
          rintro p (_ | ⟨_, hp⟩)
          · apply List.any_eq_false.mpr
            intro slot hslot
            obtain ⟨_, _, rfl⟩ := List.mem_map.mp hslot
            simp [SlotRun.ofDescriptor, h d (List.mem_cons_self ..)]
          · exact ih (fun other hother => h other (List.mem_cons_of_mem _ hother)) p hp

theorem isSingle_plansFrom {index : Nat} {fields : List Field} {descriptors : List Descriptor}
    (hscalar : ∀ f ∈ fields, f.isArray = false) (h : ∀ d ∈ descriptors, d.isCommon = false) :
    ∀ p ∈ plansFrom index fields descriptors, p.IsSingle := by
  intro p hp
  refine ⟨?_, any_isCommon_of_mem_plansFrom h p hp⟩
  clear h
  induction descriptors generalizing index fields with
  | nil => cases fields <;> cases hp
  | cons d descriptors ih =>
      cases fields with
      | nil => cases hp
      | cons f fields =>
          rcases List.mem_cons.mp hp with rfl | hp
          · exact hscalar f (List.mem_cons_self ..)
          · exact ih (fun other hother => hscalar other (List.mem_cons_of_mem _ hother)) hp

theorem needsKey_eq_false {m : Mapping}
    (h : ∀ p ∈ m.fields, p.source.slotList.any Slot.isCommon = false) : m.needsKey = false := by
  apply List.any_eq_false.mpr
  intro p hp
  rw [h p hp]
  exact Bool.false_ne_true

/-- Fields of which none is fed from the index table. -/
theorem assign_append {indexField? : Option Nat} {position index : Nat} {fields : List Field}
    {descriptors : List Descriptor} (hfits : List.Forall₂ Fits fields descriptors)
    (hindex : ∀ i < fields.length, indexField? ≠ some (position + i)) (others : List Field)
    {runs : List SlotRun} (hruns : ∀ r ∈ runs, 0 < r.count) :
    assign indexField? position (fields ++ others) (SlotRun.runsFrom index descriptors ++ runs) =
      (assign indexField? (position + fields.length) others runs).map
        (plansFrom index fields descriptors ++ ·) := by
  -- Field by field: each takes all of the first run and leaves the runs behind it alone.
  induction hfits generalizing position index with
  | nil =>
      change assign indexField? position others runs = _
      rw [List.length_nil, Nat.add_zero]
      cases assign indexField? position others runs <;> rfl
  | @cons f d fields descriptors hfit hfits ih =>
      have hother : ¬ indexField? = some position := hindex 0 (by simp)
      have hindexes : ∀ i < fields.length, indexField? ≠ some (position + 1 + i) := by
        intro i hi
        rw [Nat.add_assoc, Nat.add_comm 1 i]
        exact hindex (i + 1) (by simpa using hi)
      have hpositive : ∀ r ∈ SlotRun.runsFrom (index + 1) descriptors ++ runs, 0 < r.count := by
        intro r hr
        rcases List.mem_append.mp hr with hr | hr
        · exact SlotRun.count_pos_of_mem_runsFrom (cardinality_pos hfits) r hr
        · exact hruns r hr
      have henough : ¬ SlotRun.size (SlotRun.ofDescriptor d index ::
          (SlotRun.runsFrom (index + 1) descriptors ++ runs)) < f.arity := by
        have hfirst : (SlotRun.ofDescriptor d index).count = f.arity := hfit.symm
        rw [SlotRun.size, List.map_cons, total_cons, hfirst]
        omega
      have htake : SlotRun.takeSlots f.arity (SlotRun.ofDescriptor d index ::
          (SlotRun.runsFrom (index + 1) descriptors ++ runs)) =
            ((SlotRun.ofDescriptor d index).slots,
              SlotRun.runsFrom (index + 1) descriptors ++ runs) := by
        rw [show f.arity = (SlotRun.ofDescriptor d index).count from hfit]
        exact SlotRun.takeSlots_count _ hpositive
      have hlength : position + (f :: fields).length = position + 1 + fields.length := by
        rw [List.length_cons]
        omega
      rw [List.cons_append, SlotRun.runsFrom_cons, List.cons_append, assign, if_neg hother,
        if_neg henough, htake]
      dsimp only
      rw [ih hindexes, hlength]
      cases assign indexField? (position + 1 + fields.length) others runs <;> rfl

theorem assign_plansFrom {indexField? : Option Nat} {position index : Nat} {fields : List Field}
    {descriptors : List Descriptor} (hfits : List.Forall₂ Fits fields descriptors)
    (hindex : ∀ i < fields.length, indexField? ≠ some (position + i)) :
    assign indexField? position fields (SlotRun.runsFrom index descriptors) =
      .ok (plansFrom index fields descriptors) := by
  have hassign : assign indexField? position (fields ++ [])
      (SlotRun.runsFrom index descriptors ++ []) =
        .ok (plansFrom index fields descriptors ++ []) := assign_append hfits hindex [] nofun
  rw [List.append_nil, List.append_nil, List.append_nil] at hassign
  exact hassign

theorem buildInline_eq {schema : Schema} {descriptors : List Descriptor}
    (hfits : List.Forall₂ Fits schema.fields descriptors) (indexColumn : Nat) :
    buildInline schema descriptors indexColumn =
      .ok ⟨plansFrom 0 schema.fields descriptors,
        (plansFrom 0 schema.fields descriptors).findIdx? (FieldPlan.startsAt indexColumn),
        if indexColumn < descriptors.length then some indexColumn else none⟩ := by
  unfold buildInline
  have hassign : assign none 0 schema.fields (SlotRun.runsFrom 0 descriptors) =
      .ok (plansFrom 0 schema.fields descriptors) := assign_plansFrom hfits nofun
  change (do
    let fields ← assign none 0 schema.fields (SlotRun.runsFrom 0 descriptors)
    return (⟨fields, fields.findIdx? (FieldPlan.startsAt indexColumn),
      if indexColumn < descriptors.length then some indexColumn else none⟩ : Mapping)) = _
  rw [hassign]
  rfl

theorem buildInline_of_fits {schema : Schema} {descriptors : List Descriptor}
    (hfits : List.Forall₂ Fits schema.fields descriptors) {indexColumn : Nat}
    (hindex : indexColumn < descriptors.length) :
    buildInline schema descriptors indexColumn =
      .ok ⟨plansFrom 0 schema.fields descriptors,
        (plansFrom 0 schema.fields descriptors).findIdx? (FieldPlan.startsAt indexColumn),
        some indexColumn⟩ := by
  rw [buildInline_eq hfits, if_pos hindex]

/-- The field that is fed from the index table takes nothing from the stored fields. -/
theorem buildIndexed_of_fits {before after : List Field} {key : Field}
    {descriptors behind : List Descriptor} (hbefore : List.Forall₂ Fits before descriptors)
    (hafter : List.Forall₂ Fits after behind) (hkind : key.kind ≠ .text)
    (harray : key.isArray = false) :
    buildIndexed ⟨before ++ key :: after⟩ (descriptors ++ behind) before.length =
      .ok ⟨plansFrom 0 before descriptors ++
          ⟨key.kind, false, .indexTable⟩ :: plansFrom before.length after behind,
        some before.length, none⟩ := by
  have hfield : (before ++ key :: after)[before.length]? = some key := by simp
  have hcheck : checkIndexField ⟨before ++ key :: after⟩ before.length = .ok () := by
    unfold checkIndexField
    rw [hfield]
    dsimp only
    rw [if_neg (by simp [hkind, harray])]
    rfl
  have hruns : SlotRun.runsFrom 0 (descriptors ++ behind) =
      SlotRun.runsFrom 0 descriptors ++ SlotRun.runsFrom before.length behind := by
    rw [SlotRun.runsFrom_append, Nat.zero_add, hbefore.length_eq]
  have hpositive : ∀ r ∈ SlotRun.runsFrom before.length behind, 0 < r.count :=
    SlotRun.count_pos_of_mem_runsFrom (cardinality_pos hafter)
  have hbehind : assign (some before.length) (before.length + 1) after
      (SlotRun.runsFrom before.length behind) = .ok (plansFrom before.length after behind) := by
    refine assign_plansFrom hafter fun i _ hsame => ?_
    have heq := Option.some.inj hsame
    omega
  have hkey : assign (some before.length) before.length (key :: after)
      (SlotRun.runsFrom before.length behind) =
        .ok (⟨key.kind, false, .indexTable⟩ :: plansFrom before.length after behind) := by
    rw [assign, if_pos rfl, hbehind]
    rfl
  have hassign : assign (some before.length) 0 (before ++ key :: after)
      (SlotRun.runsFrom 0 descriptors ++ SlotRun.runsFrom before.length behind) =
        (assign (some before.length) (0 + before.length) (key :: after)
          (SlotRun.runsFrom before.length behind)).map (plansFrom 0 before descriptors ++ ·) := by
    refine assign_append hbefore (fun i hi hsame => ?_) (key :: after) hpositive
    have heq := Option.some.inj hsame
    omega
  rw [Nat.zero_add, hkey] at hassign
  unfold buildIndexed
  rw [hcheck]
  change (assign (some before.length) 0 (before ++ key :: after)
    (SlotRun.runsFrom 0 (descriptors ++ behind)) >>= fun fields => _) = _
  rw [hruns, hassign]
  rfl

/-- The field in the place of the stored field with the key holds the key. -/
theorem findIdx?_plansFrom {index : Nat} {fields : List Field} {descriptors : List Descriptor}
    (hfits : List.Forall₂ Fits fields descriptors) {i : Nat} (hi : i < fields.length) :
    (plansFrom index fields descriptors).findIdx? (FieldPlan.startsAt (index + i)) = some i := by
  induction hfits generalizing index i with
  | nil => cases hi
  | @cons f d fields descriptors hfit hfits ih =>
      obtain ⟨count, hcount⟩ : ∃ count, d.cardinality = count + 1 := by
        refine ⟨d.cardinality - 1, ?_⟩
        have hpositive := f.arity_pos
        rw [show f.arity = d.cardinality from hfit] at hpositive
        omega
      have hhead : (SlotRun.ofDescriptor d index).slots.head? =
          some ⟨index, 0, d.isCommon⟩ := by
        simp only [SlotRun.slots, SlotRun.front, SlotRun.ofDescriptor, hcount, List.range'_succ,
          List.map_cons, List.head?_cons]
      have hstarts : FieldPlan.startsAt (index + i) ⟨f.kind, f.isArray,
          .slots (SlotRun.ofDescriptor d index).slots⟩ = decide (index = index + i) := by
        simp only [FieldPlan.startsAt, FieldSource.slotList, hhead, Option.any_some]
      rw [plansFrom, List.findIdx?_cons, hstarts]
      cases i with
      | zero => rw [if_pos (by simp)]
      | succ i =>
          have hposition : index + (i + 1) = index + 1 + i := by omega
          have hrest : (plansFrom (index + 1) fields descriptors).findIdx?
              (FieldPlan.startsAt (index + 1 + i)) = some i := ih (by simpa using hi)
          rw [if_neg (by simp), hposition, hrest]
          rfl

/-- No field starts with a stored field that is not there. -/
theorem findIdx?_plansFrom_eq_none {index : Nat} {fields : List Field}
    {descriptors : List Descriptor} (hfits : List.Forall₂ Fits fields descriptors) {i : Nat}
    (hi : fields.length ≤ i) :
    (plansFrom index fields descriptors).findIdx? (FieldPlan.startsAt (index + i)) = none := by
  apply List.findIdx?_eq_none_iff.mpr
  induction hfits generalizing index i with
  | nil => nofun
  | @cons f d fields descriptors _ _ ih =>
      rw [List.length_cons] at hi
      obtain ⟨i, rfl⟩ : ∃ j, i = j + 1 := ⟨i - 1, by omega⟩
      have hposition : index + (i + 1) = index + 1 + i := by omega
      rw [hposition]
      rintro p (_ | ⟨_, hp⟩)
      · unfold FieldPlan.startsAt
        cases hhead : (SlotRun.ofDescriptor d index).slots.head? with
        | none => rw [FieldSource.slotList, hhead, Option.any_none]
        | some slot =>
            obtain ⟨_, _, rfl⟩ := List.mem_map.mp (List.mem_of_head? hhead)
            rw [FieldSource.slotList, hhead, Option.any_some]
            apply decide_eq_false
            change index ≠ index + 1 + i
            omega
      · exact ih (by omega) p hp

end Mapping

end ClientTable
