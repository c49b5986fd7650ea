import ClientTable.Proofs.ConsumedBits
import ClientTable.Proofs.PalletPositions

namespace ClientTable

open Attempt

/-- The state after one element, unless it cannot be read. -/
def RowContext.afterElement (c : RowContext) (s : RowState) (e : FieldKind × Slot) :
    Option RowState :=
  match (FieldPlan.bodyElement c e.1 e.2).on s with
  | (.ok _, t) => some t
  | (.error _, _) => none

/-- The state after elements, unless one of them cannot be read. -/
def RowContext.after (c : RowContext) (s : RowState) (elements : List (FieldKind × Slot)) :
    Option RowState :=
  elements.foldlM c.afterElement s

variable {c : RowContext} {m : Mapping} {kind : FieldKind} {slot : Slot} {s t : RowState}
  {external : Option UInt32} {elements others : List (FieldKind × Slot)} {d : Descriptor}
  {index stored : Nat}

namespace RowContext

theorem after_cons (c : RowContext) (s : RowState) (e : FieldKind × Slot)
    (elements : List (FieldKind × Slot)) :
    c.after s (e :: elements) = (c.afterElement s e).bind fun t => c.after t elements :=
  List.foldlM_cons

theorem after_append (c : RowContext) (s : RowState) (elements others : List (FieldKind × Slot)) :
    c.after s (elements ++ others) = (c.after s elements).bind fun t => c.after t others :=
  List.foldlM_append

theorem exists_of_afterElement (h : c.afterElement s (kind, slot) = some t) :
    ∃ element, (FieldPlan.bodyElement c kind slot).on s = (.ok element, t) := by
  unfold afterElement at h
  split at h
  case h_1 element u hread =>
    cases h
    exact ⟨element, hread⟩
  case h_2 => cases h

theorem after_of_on_mapM {slots : List Slot} {results : Elements}
    (h : (slots.mapM (FieldPlan.bodyElement c kind)).on s = (.ok results, t)) :
    c.after s (slots.map fun slot => (kind, slot)) = some t := by
  induction slots generalizing s results with
  | nil =>
    cases h
    rfl
  | cons slot slots ih =>
    rw [List.mapM_cons] at h
    obtain ⟨element, u, hfirst, h⟩ := on_bind_eq_ok.mp h
    obtain ⟨rest, v, hrest, h⟩ := on_bind_eq_ok.mp h
    cases h
    rw [List.map_cons, after_cons, afterElement, hfirst]
    exact ih hrest

theorem after_of_on_bodyElements {p : FieldPlan} {results : Elements}
    (h : (p.bodyElements c external).on s = (.ok results, t)) :
    c.after s p.elements = some t := by
  obtain ⟨kind, isArray, source⟩ := p
  cases source with
  | indexTable =>
    cases external with
    | none => cases h
    | some key =>
      obtain ⟨v, u, hlift, h⟩ := on_bind_eq_ok.mp h
      obtain ⟨_, rfl⟩ := on_lift_eq_ok hlift
      cases h
      rfl
  | slots slots => exact after_of_on_mapM h

theorem after_of_on_fields {plans : List FieldPlan} {body : List Elements}
    (h : (plans.mapM (FieldPlan.bodyElements c external)).on s = (.ok body, t)) :
    c.after s (plans.flatMap FieldPlan.elements) = some t := by
  induction plans generalizing s body with
  | nil =>
    cases h
    rfl
  | cons p plans ih =>
    rw [List.mapM_cons] at h
    obtain ⟨results, u, hfirst, h⟩ := on_bind_eq_ok.mp h
    obtain ⟨rest, v, hrest, h⟩ := on_bind_eq_ok.mp h
    cases h
    rw [List.flatMap_cons, after_append, after_of_on_bodyElements hfirst]
    exact ih hrest

end RowContext

theorem Mapping.Reaches.exists_after (h : m.Reaches c external s kind slot t) :
    ∃ earlier later, m.elements = earlier ++ (kind, slot) :: later ∧
      c.after s earlier = some t := by
  obtain ⟨-, before, p, after, front, behind, body, middle, results, hfields, rfl, hsource,
    hbefore, hfront⟩ := h
  refine ⟨before.flatMap FieldPlan.elements ++ front.map fun slot => (p.kind, slot),
    (behind.map fun slot => (p.kind, slot)) ++ after.flatMap FieldPlan.elements, ?_, ?_⟩
  · unfold Mapping.elements FieldPlan.elements
    simp [hfields, hsource, FieldSource.slotList]
  · rw [RowContext.after_append, RowContext.after_of_on_fields hbefore]
    exact RowContext.after_of_on_mapM hfront

namespace RowContext

theorem on_palletArrayIndex_of_kept (d : Descriptor) (h : s.palletIndex = some (index, stored)) :
    (c.palletArrayIndex index d).on s = (.ok stored, s) := by
  unfold palletArrayIndex
  rw [on_bind_of_ok (on_get s), h]
  dsimp only
  rw [if_pos rfl]
  rfl

theorem on_palletArrayIndex_of_other (d : Descriptor)
    (h : s.palletIndex.map Prod.fst ≠ some index) :
    (c.palletArrayIndex index d).on s = (palletArrayIndex.readIndex c index d).on s := by
  unfold palletArrayIndex
  rw [on_bind_of_ok (on_get s)]
  rcases hkept : s.palletIndex with - | ⟨cached, stored⟩
  · rfl
  · rw [hkept] at h
    dsimp only
    rw [if_neg fun hsame => h (congrArg some hsame)]

theorem palletArrayIndex_eq_of_other (d : Descriptor)
    (h : s.palletIndex.map Prod.fst ≠ some index) :
    ((c.palletArrayIndex index d).on s).1 =
      ((c.inlineWord d 0 false).on s).1.map BitVec.toNat := by
  rw [on_palletArrayIndex_of_other d h, palletArrayIndex.readIndex, on_bind]
  rcases (c.inlineWord d 0 false).on s with ⟨_ | word, t⟩ <;> rfl

theorem palletIndex_of_on_palletArrayIndex
    (h : (c.palletArrayIndex index d).on s = (.ok stored, t)) :
    t.palletIndex = some (index, stored) := by
  have hread (h : (palletArrayIndex.readIndex c index d).on s = (.ok stored, t)) :
      t.palletIndex = some (index, stored) := by
    obtain ⟨word, u, hread, h⟩ := on_bind_eq_ok.mp h
    cases h
    rfl
  by_cases hkept : s.palletIndex.map Prod.fst = some index
  case neg =>
    rw [on_palletArrayIndex_of_other d hkept] at h
    exact hread h
  case pos =>
    obtain ⟨⟨cached, kept⟩, hsame, rfl⟩ := Option.map_eq_some_iff.mp hkept
    rw [on_palletArrayIndex_of_kept d hsame] at h
    cases h
    exact hsame

theorem leaves_string_palletIndex (offset : UInt32) :
    Leaves RowState.palletIndex (Decode.string offset) :=
  leaves_of_respects fun _ => Decode.respects_string_of_put (fun _ _ => id) offset

theorem leaves_palletWord_palletIndex (c : RowContext) (chunk slot : Nat) (kind : FieldKind) :
    Leaves RowState.palletIndex (do wordScalar (← (← c.palletTable).word chunk slot) kind) :=
  leaves_of_respects fun _ =>
    c.respects_palletWord (fun offset => Decode.respects_string_of_put (fun _ _ => id) offset)
      chunk slot kind

theorem leaves_inlineString_palletIndex (c : RowContext) (d : Descriptor) (e : Nat) :
    Leaves RowState.palletIndex (c.inlineString d e) := by
  unfold inlineString
  split
  · exact Leaves.bind (fun _ => rfl) fun _ => leaves_pure _
  · exact leaves_get.bind fun _ => (leaves_lift _).bind fun _ => (leaves_lift _).bind fun offset =>
      leaves_string_palletIndex offset

/-- An element of a field that is no array in the pallet block does not touch the index that is
kept. -/
theorem leaves_element_palletIndex (hd : c.descriptors[index]? = some d)
    (hother : d.isPalletArray = false) (e : Nat) (kind : FieldKind) :
    Leaves RowState.palletIndex (c.element index e kind) := by
  have hword (signed : Bool) : Leaves RowState.palletIndex (c.inlineWord d e signed) :=
    leaves_inlineWord (fun _ _ => rfl) c d e signed
  have hinline (signed : Bool) : Leaves RowState.palletIndex
      (if kind = .text then c.inlineString d e
        else do Scalar.ofWord (← c.inlineWord d e signed) kind) := by
    split
    · exact c.leaves_inlineString_palletIndex d e
    · exact (hword signed).bind fun _ => leaves_lift _
  intro s
  unfold element
  rw [on_descriptor_bind hd]
  cases hstorage : d.storage with
  | plain signed | immediate signed => exact hinline signed s
  | common default chunk => rfl
  | pallet chunk =>
    exact (hword false).bind (fun stored =>
      c.leaves_palletWord_palletIndex chunk.start stored.toNat kind) s
  | palletArray chunk =>
    rw [Descriptor.isPalletArray, hstorage] at hother
    cases hother
  | relationship =>
    exact leaves_of_respects (fun _ => respects_wordScalar
      (fun offset => Decode.respects_string_of_put (fun _ _ => id) offset) _ kind) s

theorem palletIndex_of_on_element (hd : c.descriptors[index]? = some d) {chunk : Chunk}
    (hstorage : d.storage = .palletArray chunk) {e : Nat} {v : Scalar}
    (h : (c.element index e kind).on s = (.ok v, t)) :
    ∃ stored, ((c.palletArrayIndex index d).on s).1 = .ok stored ∧
      t.palletIndex = some (index, stored) := by
  unfold element at h
  rw [on_descriptor_bind hd, hstorage] at h
  obtain ⟨stored, u, hindex, h⟩ := on_bind_eq_ok.mp h
  refine ⟨stored, congrArg Prod.fst hindex, ?_⟩
  dsimp only at h
  split at h
  case isTrue => cases h
  case isFalse =>
    have hleaves := c.leaves_palletWord_palletIndex chunk.start (stored * d.cardinality + e) kind u
    rw [← palletIndex_of_on_palletArrayIndex hindex, ← hleaves]
    exact congrArg (fun result => result.2.palletIndex) h.symm

/-- Only an element of the array itself brings its index. -/
theorem afterElement_of_other (hother : slot.descriptor ≠ index)
    (hs : s.palletIndex.map Prod.fst ≠ some index)
    (h : c.afterElement s (kind, slot) = some t) : t.palletIndex.map Prod.fst ≠ some index := by
  obtain ⟨element, h⟩ := exists_of_afterElement h
  unfold FieldPlan.bodyElement at h
  split at h
  case isTrue =>
    cases h
    exact hs
  case isFalse =>
    obtain ⟨v, u, hread, h⟩ := on_bind_eq_ok.mp h
    cases h
    obtain ⟨d, u, hlift, _⟩ := on_bind_eq_ok.mp hread
    obtain ⟨hdescriptor, rfl⟩ := on_lift_eq_ok hlift
    have hd := of_descriptor hdescriptor
    cases harray : d.isPalletArray with
    | false =>
      have hleaves := leaves_element_palletIndex hd harray slot.element kind s
      rw [hread] at hleaves
      rwa [hleaves]
    | true =>
      unfold Descriptor.isPalletArray at harray
      split at harray
      case h_2 => cases harray
      case h_1 chunk hstorage =>
        obtain ⟨stored, -, hkept⟩ := palletIndex_of_on_element hd hstorage hread
        rw [hkept]
        exact fun hsame => hother (Option.some.inj hsame)

theorem afterElement_of_array (hd : c.descriptors[slot.descriptor]? = some d) {chunk : Chunk}
    (hstorage : d.storage = .palletArray chunk) (hstored : slot.isCommon = false)
    (h : c.afterElement s (kind, slot) = some t) :
    ∃ stored, ((c.palletArrayIndex slot.descriptor d).on s).1 = .ok stored ∧
      t.palletIndex = some (slot.descriptor, stored) := by
  obtain ⟨element, h⟩ := exists_of_afterElement h
  unfold FieldPlan.bodyElement at h
  rw [hstored, if_neg Bool.false_ne_true] at h
  obtain ⟨v, u, hread, h⟩ := on_bind_eq_ok.mp h
  cases h
  exact palletIndex_of_on_element hd hstorage hread

theorem after_of_others (hothers : ∀ e ∈ elements, e.2.descriptor ≠ index)
    (hs : s.palletIndex.map Prod.fst ≠ some index) (h : c.after s elements = some t) :
    t.palletIndex.map Prod.fst ≠ some index := by
  induction elements generalizing s with
  | nil =>
    cases h
    exact hs
  | cons e elements ih =>
    obtain ⟨hfirst, hothers⟩ := List.forall_mem_cons.mp hothers
    rw [after_cons] at h
    obtain ⟨u, hu, h⟩ := Option.bind_eq_some_iff.mp h
    exact ih hothers (afterElement_of_other hfirst hs hu) h

theorem after_of_array (hd : c.descriptors[index]? = some d) {chunk : Chunk}
    (hstorage : d.storage = .palletArray chunk)
    (hown : ∀ e ∈ elements, e.2.descriptor = index ∧ e.2.isCommon = false)
    (hs : s.palletIndex = some (index, stored)) (h : c.after s elements = some t) :
    t.palletIndex = some (index, stored) := by
  induction elements generalizing s with
  | nil =>
    cases h
    exact hs
  | cons e elements ih =>
    obtain ⟨⟨rfl, hstored⟩, hown⟩ := List.forall_mem_cons.mp hown
    rw [after_cons] at h
    obtain ⟨u, hu, h⟩ := Option.bind_eq_some_iff.mp h
    obtain ⟨again, hindex, hkept⟩ := afterElement_of_array hd hstorage hstored hu
    rw [on_palletArrayIndex_of_kept d hs] at hindex
    cases hindex
    exact ih hown hkept h

theorem palletIndex_of_after (hd : c.descriptors[index]? = some d) {chunk : Chunk}
    (hstorage : d.storage = .palletArray chunk)
    (hown : ∀ e ∈ elements, e.2.descriptor = index ∧ e.2.isCommon = false)
    (hne : elements ≠ []) (h : c.after s elements = some t) :
    ∃ stored, ((c.palletArrayIndex index d).on s).1 = .ok stored ∧
      t.palletIndex = some (index, stored) := by
  cases elements with
  | nil => exact absurd rfl hne
  | cons first elements =>
    obtain ⟨⟨rfl, hstored⟩, hown⟩ := List.forall_mem_cons.mp hown
    rw [after_cons] at h
    obtain ⟨u, hu, h⟩ := Option.bind_eq_some_iff.mp h
    obtain ⟨stored, hindex, hkept⟩ := afterElement_of_array hd hstorage hstored hu
    exact ⟨stored, hindex, after_of_array hd hstorage hown hkept h⟩

end RowContext

/-- The elements of a stored field come one after the other, and behind those of earlier fields. -/
def Slot.Before (a b : Slot) : Prop :=
  a.descriptor < b.descriptor ∨ a.descriptor = b.descriptor ∧ a.element < b.element

theorem Slot.Before.descriptor_le {a b : Slot} (h : a.Before b) : a.descriptor ≤ b.descriptor :=
  h.elim Nat.le_of_lt fun hsame => Nat.le_of_eq hsame.1

theorem Slot.Before.asymm {a b : Slot} (h : a.Before b) : ¬b.Before a := by
  unfold Before at *
  omega

namespace SlotRun

theorem pairwise_before_front (r : SlotRun) (count : Nat) :
    (r.front count).Pairwise Slot.Before :=
  List.pairwise_map.mpr ((List.pairwise_lt_range' 1).imp fun hlt => Or.inr ⟨rfl, hlt⟩)

theorem pairwise_before_flatten (first : Nat) (descriptors : List Descriptor) :
    (flatten (runsFrom first descriptors)).Pairwise Slot.Before := by
  induction descriptors generalizing first with
  | nil => exact .nil
  | cons d descriptors ih =>
    rw [runsFrom_cons, flatten, List.flatMap_cons]
    refine List.pairwise_append.mpr ⟨pairwise_before_front _ _, ih (first + 1), ?_⟩
    intro a ha b hb
    obtain ⟨element, _, rfl⟩ := List.mem_map.mp ha
    exact Or.inl ((pairwise_flatten_runsFrom (first + 1) descriptors).1 b hb)

theorem pairwise_before_ofDescriptors (descriptors : List Descriptor) :
    (flatten (ofDescriptors descriptors)).Pairwise Slot.Before :=
  pairwise_before_flatten 0 descriptors

theorem first_mem_flatten {descriptors : List Descriptor} {slot : Slot}
    (h : slot ∈ flatten (ofDescriptors descriptors)) :
    { slot with element := 0 } ∈ flatten (ofDescriptors descriptors) := by
  obtain ⟨r, hr, hslot⟩ := List.mem_flatMap.mp h
  refine List.mem_flatMap.mpr ⟨r, hr, ?_⟩
  obtain ⟨⟨d, index⟩, hd, rfl⟩ := List.mem_map.mp hr
  obtain ⟨element, helement, rfl⟩ := List.mem_map.mp hslot
  refine List.mem_map.mpr ⟨0, ?_, rfl⟩
  rw [List.mem_range'_1] at helement ⊢
  exact ⟨Nat.le_refl 0, Nat.lt_of_le_of_lt (Nat.zero_le _) helement.2⟩

end SlotRun

namespace Mapping

variable {schema : Schema} {descriptors : List Descriptor} {column : Nat} {indexed : Bool}

theorem map_snd_elements (m : Mapping) : m.elements.map Prod.snd = m.slots := by
  unfold elements slots FieldPlan.elements
  simp [List.map_flatMap]

theorem Built.pairwise_before (h : Built schema descriptors column indexed m) :
    m.elements.Pairwise fun a b => a.2.Before b.2 := by
  obtain ⟨left, hleft⟩ := h.slots_append
  have hordered := SlotRun.pairwise_before_ofDescriptors descriptors
  rw [← hleft, ← map_snd_elements] at hordered
  exact List.pairwise_map.mp (List.pairwise_append.mp hordered).1

/-- The elements of the stored fields before one of them. -/
def elementsBefore (m : Mapping) (index : Nat) : List (FieldKind × Slot) :=
  m.elements.takeWhile fun e => e.2.descriptor < index

theorem descriptor_eq_of_mem_dropWhile {index : Nat} {elements : List (FieldKind × Slot)}
    (hordered : elements.Pairwise fun a b => a.2.Before b.2)
    (hle : ∀ e ∈ elements, e.2.descriptor ≤ index) :
    ∀ e ∈ elements.dropWhile fun e => e.2.descriptor < index, e.2.descriptor = index := by
  induction elements with
  | nil => exact nofun
  | cons first elements ih =>
    obtain ⟨hfirst, hordered⟩ := List.pairwise_cons.mp hordered
    obtain ⟨hown, hle⟩ := List.forall_mem_cons.mp hle
    rw [List.dropWhile_cons]
    split
    case isTrue => exact ih hordered hle
    case isFalse hnot =>
      have hsame : first.2.descriptor = index :=
        Nat.le_antisymm hown (Nat.le_of_not_lt fun hlt => hnot (decide_eq_true hlt))
      refine List.forall_mem_cons.mpr ⟨hsame, fun e he => ?_⟩
      exact Nat.le_antisymm (hle e he) (hsame ▸ (hfirst e he).descriptor_le)

theorem descriptor_lt_of_mem {e : FieldKind × Slot} (h : e ∈ m.elementsBefore index) :
    e.2.descriptor < index := by
  have hlt := List.mem_takeWhile_imp h
  exact of_decide_eq_true hlt

theorem elementsBefore_append {earlier later : List (FieldKind × Slot)}
    (h : m.elements = earlier ++ (kind, slot) :: later) :
    m.elementsBefore slot.descriptor =
      earlier.takeWhile fun e => e.2.descriptor < slot.descriptor := by
  have hstop : ((kind, slot) :: later).takeWhile (fun e => e.2.descriptor < slot.descriptor) = [] :=
    List.takeWhile_cons_of_neg (by simp)
  rw [elementsBefore, h, List.takeWhile_append]
  split
  case isTrue hall =>
    rw [hstop, List.append_nil]
    exact ((List.takeWhile_prefix _).eq_of_length hall).symm
  case isFalse => rfl

/-- Where an element is not the first of its stored field, the first one comes before it. -/
theorem Built.exists_first (hbuilt : Built schema descriptors column indexed m)
    {earlier later : List (FieldKind × Slot)}
    (h : m.elements = earlier ++ (kind, slot) :: later) (hlater : slot.element ≠ 0) :
    ∃ e ∈ earlier, e.2.descriptor = slot.descriptor := by
  obtain ⟨left, hleft⟩ := hbuilt.slots_append
  have hslots : m.slots = earlier.map Prod.snd ++ slot :: later.map Prod.snd := by
    rw [← map_snd_elements, h, List.map_append, List.map_cons]
  rw [hslots, List.append_assoc] at hleft
  have hmem : slot ∈ SlotRun.flatten (SlotRun.ofDescriptors descriptors) := by
    rw [← hleft]
    exact List.mem_append_right _ (List.mem_cons_self ..)
  have hordered := SlotRun.pairwise_before_ofDescriptors descriptors
  have hfirst := SlotRun.first_mem_flatten hmem
  have hprior : Slot.Before { slot with element := 0 } slot :=
    Or.inr ⟨rfl, Nat.pos_of_ne_zero hlater⟩
  rw [← hleft] at hordered hfirst
  -- Behind the element everything comes after it, so the first one cannot be there.
  have hbehind := (List.pairwise_cons.mp (List.pairwise_append.mp hordered).2.1).1
  rcases List.mem_append.mp hfirst with hin | hin
  · obtain ⟨e, he, hsame⟩ := List.mem_map.mp hin
    exact ⟨e, he, by rw [hsame]⟩
  · rcases List.mem_cons.mp hin with hsame | hin
    · exact absurd (congrArg Slot.element hsame).symm hlater
    · exact absurd hprior (hbehind _ hin).asymm

/-- Before an element come those of the stored fields before its own, and then the ones of its own
that stand before it. -/
theorem Built.exists_run (hbuilt : Built schema descriptors column indexed m)
    {earlier later : List (FieldKind × Slot)}
    (h : m.elements = earlier ++ (kind, slot) :: later) :
    ∃ run, earlier = m.elementsBefore slot.descriptor ++ run ∧
      (∀ e ∈ run, e.2.descriptor = slot.descriptor) ∧ (run = [] ↔ slot.element = 0) := by
  have hordered := hbuilt.pairwise_before
  rw [h] at hordered
  obtain ⟨hearlier, -, hcross⟩ := List.pairwise_append.mp hordered
  have hbefore : ∀ e ∈ earlier, e.2.Before slot :=
    fun e he => hcross e he _ (List.mem_cons_self ..)
  have hrun := descriptor_eq_of_mem_dropWhile hearlier fun e he => (hbefore e he).descriptor_le
  refine ⟨earlier.dropWhile fun e => e.2.descriptor < slot.descriptor, ?_, hrun, ?_, ?_⟩
  · rw [elementsBefore_append h, List.takeWhile_append_dropWhile]
  · intro hnone
    by_contra hlater
    obtain ⟨e, he, hsame⟩ := hbuilt.exists_first h hlater
    have hall := List.dropWhile_eq_nil_iff.mp hnone e he
    exact Nat.ne_of_lt (of_decide_eq_true hall) hsame
  · intro hfirst
    refine List.eq_nil_iff_forall_not_mem.mpr fun e he => ?_
    have hmem : e ∈ earlier := (List.dropWhile_sublist _).mem he
    rcases hbefore e hmem with hlt | ⟨-, hlt⟩
    · exact Nat.ne_of_lt hlt (hrun e he)
    · exact Nat.not_lt_zero _ (hfirst ▸ hlt)

end Mapping

/-- An element of a pallet array is read with the index `outcome`, from the state `s` of the row on.
The first element takes it from the row. For the others it is kept, and they take nothing from the
row, whatever is in it. -/
structure RowContext.SharesIndex (c : RowContext) (index : Nat) (d : Descriptor)
    (outcome : Except Error Nat) (e : Nat) (s : RowState) : Prop where
  used : ((c.palletArrayIndex index d).on s).1 = outcome
  first : e = 0 → ((c.inlineWord d 0 false).on s).1.map BitVec.toNat = outcome
  later : e ≠ 0 → ∃ stored, outcome = .ok stored ∧
    ∀ bits, (c.palletArrayIndex index d).on { s with bits } = (.ok stored, { s with bits })

namespace RowContext

theorem sharesIndex_of_other (d : Descriptor) (h : s.palletIndex.map Prod.fst ≠ some index) :
    c.SharesIndex index d (((c.inlineWord d 0 false).on s).1.map BitVec.toNat) 0 s where
  used := palletArrayIndex_eq_of_other d h
  first _ := rfl
  later hne := absurd rfl hne

theorem sharesIndex_of_kept (d : Descriptor) (h : s.palletIndex = some (index, stored)) {e : Nat}
    (he : e ≠ 0) : c.SharesIndex index d (.ok stored) e s where
  used := congrArg Prod.fst (on_palletArrayIndex_of_kept d h)
  first hzero := absurd hzero he
  later _ := ⟨stored, rfl, fun _ => on_palletArrayIndex_of_kept d h⟩

end RowContext

namespace Mapping

variable {schema : Schema} {column : Nat} {indexed : Bool} {chunk : Chunk}

theorem Built.isCommon_of_mem_elements (hbuilt : Built schema c.descriptors column indexed m)
    (hd : c.descriptors[index]? = some d) (hstorage : d.storage = .palletArray chunk)
    {e : FieldKind × Slot} (he : e ∈ m.elements) (hindex : e.2.descriptor = index) :
    e.2.isCommon = false := by
  obtain ⟨p, hp, he⟩ := List.mem_flatMap.mp he
  obtain ⟨slot, hslot, rfl⟩ := List.mem_map.mp he
  obtain ⟨own, hown, hcommon⟩ := hbuilt.exists_descriptor hp hslot
  rw [hindex, hd] at hown
  cases hown
  rw [hcommon, Descriptor.isCommon, hstorage]

/-- All the elements of an array that a row comes to have one index. -/
theorem Built.exists_sharedIndex (hbuilt : Built schema c.descriptors column indexed m)
    (hd : c.descriptors[index]? = some d) (hstorage : d.storage = .palletArray chunk)
    (external : Option UInt32) (data : Bytes) (strings : StringTable) :
    ∃ outcome, ∀ e kind t,
      m.Reaches c external (.start data strings) kind ⟨index, e, false⟩ t →
        c.SharesIndex index d outcome e t := by
  cases hprior : c.after (.start data strings) (m.elementsBefore index) with
  | none =>
    -- A fault of an earlier field ends the row before any element of the array.
    refine ⟨.ok 0, fun e kind t hreaches => ?_⟩
    obtain ⟨earlier, later, helements, hafter⟩ := hreaches.exists_after
    obtain ⟨run, rfl, -, -⟩ := hbuilt.exists_run helements
    rw [RowContext.after_append, hprior] at hafter
    cases hafter
  | some u =>
    have hfresh : u.palletIndex.map Prod.fst ≠ some index := by
      have hstart : (RowState.start data strings).palletIndex.map Prod.fst ≠ some index := nofun
      exact RowContext.after_of_others (fun e he => Nat.ne_of_lt (descriptor_lt_of_mem he)) hstart
        hprior
    have hshares := RowContext.sharesIndex_of_other (c := c) d hfresh
    refine ⟨((c.inlineWord d 0 false).on u).1.map BitVec.toNat, fun e kind t hreaches => ?_⟩
    obtain ⟨earlier, later, helements, hafter⟩ := hreaches.exists_after
    obtain ⟨run, rfl, hown, hfirst⟩ := hbuilt.exists_run helements
    rw [RowContext.after_append, hprior, Option.bind_some] at hafter
    by_cases he : e = 0
    case pos =>
      subst he
      obtain rfl := hfirst.mpr rfl
      cases hafter
      exact hshares
    case neg =>
      have hown : ∀ other ∈ run, other.2.descriptor = index ∧ other.2.isCommon = false := by
        intro other hother
        have hmem : other ∈ m.elements :=
          helements ▸ List.mem_append_left _ (List.mem_append_right _ hother)
        exact ⟨hown other hother,
          hbuilt.isCommon_of_mem_elements hd hstorage hmem (hown other hother)⟩
      obtain ⟨stored, hindex, hkept⟩ :=
        RowContext.palletIndex_of_after hd hstorage hown (fun hnone => he (hfirst.mp hnone)) hafter
      rw [← hshares.used, hindex]
      exact RowContext.sharesIndex_of_kept d hkept he

/-- An index in the pallet block leads to the word at its own position and nowhere else, also where
the position is too large for 64 bits. Whatever element of an array a row comes to, its index is the
one that has been read with the first. -/
theorem pallet_positions {pallet : PalletTable} (hpallet : c.pallet = some pallet)
    (hsize : pallet.size < positionLimit) :
    (∀ index d chunk, c.descriptors[index]? = some d → d.palletChunk? = some chunk →
      ∀ e kind s stored, ((c.storedIndex index d e).on s).1 = .ok stored →
        c.FindsWord pallet (PalletTable.position chunk.start (d.palletSlot stored e)) kind s
          ((c.element index e kind).on s).1) ∧
    (∀ schema column indexed m, build schema c.descriptors column indexed = .ok m →
      ∀ external data strings index d chunk, c.descriptors[index]? = some d →
        d.storage = .palletArray chunk →
          ∃ outcome, ∀ e kind t,
            m.Reaches c external (.start data strings) kind ⟨index, e, false⟩ t →
              c.SharesIndex index d outcome e t ∧
              ∀ stored, outcome = .ok stored →
                c.FindsWord pallet (PalletTable.position chunk.start (stored * d.cardinality + e))
                  kind t ((c.element index e kind).on t).1) ∧
    (∀ (d : Descriptor) (own chunk : Chunk) (arity element : UInt32) (stored : UInt64) kind,
      d.storage = .palletArray own → d.cardinality = arity.toNat →
        c.lookUp d element.toNat kind chunk stored.toNat =
          match PalletTable.slot? stored arity element with
          | some slot => c.elementAt kind chunk slot.toNat
          | none => throw (.invalid (.palletIndexOverflow stored.toNat))) ∧
    ∀ (chunk : UInt32) (slot : UInt64), pallet.word chunk.toNat slot.toNat =
      match pallet.stop? chunk slot with
      | some stop => .ok (pallet.wordAt (stop.toNat - 4))
      | none => .error (.invalid (.palletOutside slot.toNat chunk.toNat pallet.size)) := by
  refine ⟨?_, ?_, ?_, ?_⟩
  · intro index d chunk hd hchunk e kind s stored hstored
    exact RowContext.findsWord_element hd hchunk hpallet hsize kind hstored
  · intro schema column indexed m hbuild external data strings index d chunk hd hstorage
    obtain ⟨outcome, hshared⟩ :=
      (built_of_build hbuild).exists_sharedIndex hd hstorage external data strings
    refine ⟨outcome, fun e kind t hreaches => ⟨hshared e kind t hreaches, ?_⟩⟩
    intro stored houtcome
    have hchunk : d.palletChunk? = some chunk := by rw [Descriptor.palletChunk?, hstorage]
    have hslot : d.palletSlot stored e = stored * d.cardinality + e := by
      rw [Descriptor.palletSlot, hstorage]
    have hstored : ((c.storedIndex index d e).on t).1 = .ok stored := by
      rw [RowContext.storedIndex, hstorage]
      exact (hshared e kind t hreaches).used.trans houtcome
    rw [← hslot]
    exact RowContext.findsWord_element hd hchunk hpallet hsize kind hstored
  · intro d own chunk arity element stored kind hstorage harity
    exact RowContext.lookUp_eq_match_slot? hstorage harity stored element
  · exact PalletTable.word_eq_match_stop? hsize

theorem pallet_positions_pairs :
    let pallet : PalletTable := ⟨[3, 0, 0, 0, 4, 0, 0, 0]⟩
    let d : Descriptor := ⟨0, 64, 2, .palletArray ⟨0, 8⟩⟩
    let c : RowContext := {
      descriptors := [d], index := 0, offset := 0, isVariable := false
      hasRelativeStrings := false, stringBlockStart := 0, relationships := none
      pallet := some pallet, common := none }
    let first : RowState := .start [0, 0, 0, 0, 0, 0, 0, 0] (.ofBytes [] false)
    let large : RowState := .start [0, 0, 0, 0, 0, 0, 0, 0x40] (.ofBytes [] false)
    ∃ m, build ⟨[.array "pair" .u32 2]⟩ c.descriptors 0 false = .ok m ∧
      ((m.values c none).on first).1 = .ok [.array [.scalar (.int ⟨.w32, false⟩ 3),
        .scalar (.int ⟨.w32, false⟩ 4)]] ∧
      ((m.values c none).on large).1 = .error (.invalid (.palletOutside (2 ^ 63) 0 8)) ∧
      c.FindsWord pallet (2 ^ 65) .u32 large ((c.element 0 0 .u32).on large).1 ∧
      ∃ outcome, ∀ e kind t, m.Reaches c none first kind ⟨0, e, false⟩ t →
        c.SharesIndex 0 d outcome e t := by
  intro pallet d c first large
  let m : Mapping := ⟨[⟨.u32, true, .slots [⟨0, 0, false⟩, ⟨0, 1, false⟩]⟩], some 0, some 0⟩
  have hbuild : build ⟨[.array "pair" .u32 2]⟩ c.descriptors 0 false = .ok m := by decide +kernel
  have hpallet : c.pallet = some pallet := rfl
  obtain ⟨hfinds, hshares, -, -⟩ := pallet_positions hpallet (by decide)
  obtain ⟨outcome, hshared⟩ := hshares _ _ _ m hbuild none [0, 0, 0, 0, 0, 0, 0, 0]
    (.ofBytes [] false) 0 d ⟨0, 8⟩ rfl rfl
  have hstored : ((c.storedIndex 0 d 0).on large).1 = .ok (2 ^ 62) := by decide +kernel
  have hlarge := hfinds 0 d ⟨0, 8⟩ rfl rfl 0 .u32 large (2 ^ 62) hstored
  have hposition : PalletTable.position 0 (d.palletSlot (2 ^ 62) 0) = 2 ^ 65 := by decide +kernel
  rw [hposition] at hlarge
  exact ⟨m, hbuild, by decide +kernel, by decide +kernel, hlarge, outcome,
    fun e kind t hreaches => (hshared e kind t hreaches).1⟩

end Mapping

end ClientTable
