import ClientTable.Proofs.RowOverruns
import ClientTable.Proofs.Texts

namespace ClientTable

open Attempt

def Descriptor.isPalletArray (d : Descriptor) : Bool :=
  match d.storage with
  | .palletArray _ => true
  | _ => false

/-- The bits that an element takes up at the cursor, where elements of the stored fields in
`earlier` have been read before it. -/
inductive RowContext.Takes (c : RowContext) (data : Bytes) (earlier : List Nat) (cursor : Nat)
    (kind : FieldKind) (slot : Slot) : (count : Nat) → Prop
  | number {d : Descriptor} (hd : c.descriptors[slot.descriptor]? = some d)
    (hinline : d.isInline = true) (hkind : kind ≠ .text) :
    Takes c data earlier cursor kind slot d.bitSize
  | text {d : Descriptor} {text behind : Bytes} (hd : c.descriptors[slot.descriptor]? = some d)
    (hinline : d.isInline = true) (hkind : kind = .text) (haligned : cursor % 8 = 0)
    (htext : data.drop (cursor / 8) = text ++ 0 :: behind) (hzero : 0 ∉ text) :
    Takes c data earlier cursor kind slot (8 * (text.length + 1))
  | pallet {d : Descriptor} {chunk : Chunk} (hd : c.descriptors[slot.descriptor]? = some d)
    (hstorage : d.storage = .pallet chunk) :
    Takes c data earlier cursor kind slot d.bitSize
  | firstOfArray {d : Descriptor} {chunk : Chunk}
    (hd : c.descriptors[slot.descriptor]? = some d) (hstorage : d.storage = .palletArray chunk)
    (hfirst : slot.descriptor ∉ earlier) :
    Takes c data earlier cursor kind slot d.bitSize
  | ofArray {d : Descriptor} {chunk : Chunk} (hd : c.descriptors[slot.descriptor]? = some d)
    (hstorage : d.storage = .palletArray chunk) (hread : slot.descriptor ∈ earlier) :
    Takes c data earlier cursor kind slot 0
  | common {d : Descriptor} (hd : c.descriptors[slot.descriptor]? = some d)
    (hcommon : d.isCommon = true) :
    Takes c data earlier cursor kind slot 0
  | relationship {d : Descriptor} (hd : c.descriptors[slot.descriptor]? = some d)
    (hstorage : d.storage = .relationship) :
    Takes c data earlier cursor kind slot 0

/-- The bits that elements take up one after the other from the cursor on. -/
inductive RowContext.Spends (c : RowContext) (data : Bytes) :
    (earlier : List Nat) → (cursor : Nat) → List (FieldKind × Slot) → List Nat → Prop
  | nil (earlier : List Nat) (cursor : Nat) : Spends c data earlier cursor [] []
  | cons {earlier : List Nat} {cursor : Nat} {kind : FieldKind} {slot : Slot}
    {elements : List (FieldKind × Slot)} {count : Nat} {counts : List Nat}
    (hfirst : c.Takes data earlier cursor kind slot count)
    (hrest : Spends c data (slot.descriptor :: earlier) (cursor + count) elements counts) :
    Spends c data earlier cursor ((kind, slot) :: elements) (count :: counts)

/-- The elements of a field, each with its kind. -/
def FieldPlan.elements (p : FieldPlan) : List (FieldKind × Slot) :=
  p.source.slotList.map fun slot => (p.kind, slot)

def Mapping.elements (m : Mapping) : List (FieldKind × Slot) :=
  m.fields.flatMap FieldPlan.elements

/-- The stored fields of elements, the last first. -/
def Slot.trail (elements : List (FieldKind × Slot)) : List Nat :=
  (elements.map fun e => e.2.descriptor).reverse

theorem Slot.trail_cons (e : FieldKind × Slot) (elements : List (FieldKind × Slot)) (earlier) :
    trail (e :: elements) ++ earlier = trail elements ++ e.2.descriptor :: earlier := by
  simp [trail]

theorem Slot.trail_append (elements others : List (FieldKind × Slot)) :
    trail (elements ++ others) = trail others ++ trail elements := by
  simp [trail]

theorem RowContext.Spends.append {c : RowContext} {data : Bytes} {earlier : List Nat} {cursor : Nat}
    {elements others : List (FieldKind × Slot)} {counts more : List Nat}
    (h : c.Spends data earlier cursor elements counts)
    (hothers : c.Spends data (Slot.trail elements ++ earlier) (cursor + total counts) others more) :
    c.Spends data earlier cursor (elements ++ others) (counts ++ more) := by
  induction h with
  | nil earlier cursor => exact hothers
  | cons hfirst _ ih =>
    refine Spends.cons hfirst (ih ?_)
    rwa [Slot.trail_cons, total_cons, ← Nat.add_assoc] at hothers

def RowContext.lastArray (c : RowContext) (earlier : List Nat) : Option Nat :=
  earlier.find? fun index => c.descriptors[index]?.any Descriptor.isPalletArray

/-- The cursor and the index that is kept, after elements of the stored fields in `earlier`. -/
structure RowState.After (c : RowContext) (data : Bytes) (earlier : List Nat) (cursor : Nat)
    (s : RowState) : Prop where
  bits : s.bits = ⟨data, cursor⟩
  palletIndex : s.palletIndex.map Prod.fst = c.lastArray earlier

variable {c : RowContext} {data : Bytes} {earlier : List Nat} {cursor : Nat} {kind : FieldKind}
  {slot : Slot} {s t : RowState} {d : Descriptor} {index : Nat}

namespace RowContext

theorem lastArray_cons_of_isPalletArray (hd : c.descriptors[index]? = some d)
    (harray : d.isPalletArray = true) (earlier : List Nat) :
    c.lastArray (index :: earlier) = some index := by
  unfold lastArray
  rw [List.find?_cons, hd, Option.any_some, harray]

theorem lastArray_cons_of_other (hd : c.descriptors[index]? = some d)
    (hother : d.isPalletArray = false) (earlier : List Nat) :
    c.lastArray (index :: earlier) = c.lastArray earlier := by
  unfold lastArray
  rw [List.find?_cons, hd, Option.any_some, hother]

/-- The fields come in order, so a pallet array has been read before if and only if it has been
read last. -/
theorem lastArray_eq_some_iff (hd : c.descriptors[index]? = some d)
    (harray : d.isPalletArray = true) (hordered : (index :: earlier).Pairwise (· ≥ ·)) :
    c.lastArray earlier = some index ↔ index ∈ earlier := by
  constructor
  · exact List.mem_of_find?_eq_some
  · intro hmem
    obtain ⟨hle, hordered⟩ := List.pairwise_cons.mp hordered
    induction earlier with
    | nil => cases hmem
    | cons first earlier ih =>
      obtain ⟨hfirst, hordered⟩ := List.pairwise_cons.mp hordered
      by_cases hsame : first = index
      · subst hsame
        exact lastArray_cons_of_isPalletArray hd harray earlier
      · have hrest := (List.mem_cons.mp hmem).resolve_left (Ne.symm hsame)
        have hgreater := hfirst index hrest
        have hless := hle first (List.mem_cons_self ..)
        omega

end RowContext

namespace RowState

theorem After.of_respects {α : Type} {m : Decode α} {x : Except Error α}
    (hs : s.After c data earlier cursor)
    (hm : Respects (fun u v => u = v ∧ u.After c data earlier cursor) m) (h : m.on s = (x, t)) :
    t.After c data earlier cursor := by
  have hafter := (hm s s ⟨rfl, hs⟩).2.2
  rwa [h] at hafter

theorem respects_string_after (offset : UInt32) :
    Respects (fun u v => u = v ∧ u.After c data earlier cursor) (Decode.string offset) :=
  Decode.respects_string_of_put (fun _ _ h => ⟨h.bits, h.palletIndex⟩) offset

theorem After.cons_of_other (hs : s.After c data earlier cursor)
    (hd : c.descriptors[index]? = some d) (hother : d.isPalletArray = false) (count : Nat) :
    After c data (index :: earlier) (cursor + count)
      { s with bits := ⟨s.bits.data, s.bits.cursor + count⟩ } where
  bits := by rw [hs.bits]
  palletIndex := by rw [RowContext.lastArray_cons_of_other hd hother, ← hs.palletIndex]

end RowState

namespace RowContext

theorem on_inlineWord_of_variable (hvariable : c.isVariable = true) {element : Nat}
    {signed : Bool} {word : BitVec 64}
    (h : (c.inlineWord d element signed).on s = (.ok word, t)) :
    t = { s with bits := ⟨s.bits.data, s.bits.cursor + d.bitSize⟩ } := by
  unfold inlineWord at h
  rw [hvariable, if_pos rfl, Decode.bits, on_focus, BitRead.on_word] at h
  cases hread : s.bits.readWordAt s.bits.cursor d.bitSize signed with
  | error e =>
    rw [hread] at h
    cases h
  | ok value =>
    rw [hread] at h
    cases h
    rfl

theorem on_inlineString_of_variable (hvariable : c.isVariable = true) {element : Nat}
    {v : Scalar} (h : (c.inlineString d element).on s = (.ok v, t)) :
    s.bits.cursor % 8 = 0 ∧ ∃ text behind,
      s.bits.data.drop (s.bits.cursor / 8) = text ++ 0 :: behind ∧ 0 ∉ text ∧
        t = { s with bits := ⟨s.bits.data, s.bits.cursor + 8 * (text.length + 1)⟩ } := by
  unfold inlineString at h
  rw [hvariable, if_pos rfl] at h
  obtain ⟨decoded, u, hread, h⟩ := on_bind_eq_ok.mp h
  cases h
  rw [Decode.bits, on_focus] at hread
  by_cases haligned : s.bits.cursor % 8 = 0
  · rw [BitRead.on_text_of_aligned haligned] at hread
    cases hfound : terminated? (s.bits.data.drop (s.bits.cursor / 8)) with
    | none =>
      rw [hfound] at hread
      cases hread
    | some text =>
      rw [hfound] at hread
      cases hread
      obtain ⟨hzero, behind, htext⟩ := exists_of_terminated? hfound
      exact ⟨haligned, text, behind, htext, hzero, rfl⟩
  · rw [BitRead.on_text_of_unaligned haligned] at hread
    cases hread

theorem on_readIndex_of_variable (hvariable : c.isVariable = true) {stored : Nat}
    (h : (palletArrayIndex.readIndex c index d).on s = (.ok stored, t)) :
    t = { s with
      bits := ⟨s.bits.data, s.bits.cursor + d.bitSize⟩
      palletIndex := some (index, stored) } := by
  obtain ⟨word, u, hread, h⟩ := on_bind_eq_ok.mp h
  obtain rfl := on_inlineWord_of_variable hvariable hread
  cases h
  rfl

theorem takes_of_on_palletArrayIndex (hvariable : c.isVariable = true)
    (hs : s.After c data earlier cursor) (hd : c.descriptors[slot.descriptor]? = some d)
    {chunk : Chunk} (hstorage : d.storage = .palletArray chunk)
    (hordered : (slot.descriptor :: earlier).Pairwise (· ≥ ·)) {stored : Nat}
    (h : (c.palletArrayIndex slot.descriptor d).on s = (.ok stored, t)) :
    ∃ count, c.Takes data earlier cursor kind slot count ∧
      t.After c data (slot.descriptor :: earlier) (cursor + count) := by
  have harray : d.isPalletArray = true := by rw [Descriptor.isPalletArray, hstorage]
  have hlast := lastArray_cons_of_isPalletArray hd harray earlier
  have hkept := lastArray_eq_some_iff hd harray hordered
  rw [← hs.palletIndex] at hkept
  unfold palletArrayIndex at h
  rw [on_bind_of_ok (on_get s)] at h
  have hfresh (hnew : s.palletIndex.map Prod.fst ≠ some slot.descriptor)
      (h : (palletArrayIndex.readIndex c slot.descriptor d).on s = (.ok stored, t)) :
      ∃ count, c.Takes data earlier cursor kind slot count ∧
        t.After c data (slot.descriptor :: earlier) (cursor + count) := by
    obtain rfl := on_readIndex_of_variable hvariable h
    refine ⟨d.bitSize, .firstOfArray hd hstorage fun hread => hnew (hkept.mpr hread), ?_, ?_⟩
    · rw [hs.bits]
    · exact hlast.symm
  -- Only where the index that is kept is that of this array, nothing is read.
  rcases hindex : s.palletIndex with - | ⟨cached, kept⟩
  · rw [hindex] at h
    exact hfresh (by rw [hindex]; exact nofun) h
  · rw [hindex] at h
    dsimp only at h
    split at h
    case isTrue hsame =>
      cases h
      have hread : s.palletIndex.map Prod.fst = some slot.descriptor := by rw [hindex, ← hsame]; rfl
      exact ⟨0, .ofArray hd hstorage (hkept.mp hread), hs.bits, hread.trans hlast.symm⟩
    case isFalse hother =>
      refine hfresh ?_ h
      rw [hindex]
      exact fun hsame => hother (Option.some.inj hsame)

/-- What an element takes up is what reading it moves the cursor by. -/
theorem takes_of_on_element (hvariable : c.isVariable = true) (hs : s.After c data earlier cursor)
    (hordered : (slot.descriptor :: earlier).Pairwise (· ≥ ·)) {v : Scalar}
    (h : (c.element slot.descriptor slot.element kind).on s = (.ok v, t)) :
    ∃ count, c.Takes data earlier cursor kind slot count ∧
      t.After c data (slot.descriptor :: earlier) (cursor + count) := by
  obtain ⟨d, u, hlift, h⟩ := on_bind_eq_ok.mp h
  obtain ⟨hdescriptor, rfl⟩ := on_lift_eq_ok hlift
  have hd := of_descriptor hdescriptor
  -- Plain and packed elements are read alike, but for their sign.
  have hinline (signed : Bool) (hinline : d.isInline = true) (hother : d.isPalletArray = false)
      (h : (if kind = .text then c.inlineString d slot.element
        else do Scalar.ofWord (← c.inlineWord d slot.element signed) kind).on s = (.ok v, t)) :
      ∃ count, c.Takes data earlier cursor kind slot count ∧
        t.After c data (slot.descriptor :: earlier) (cursor + count) := by
    split at h
    case isTrue hkind =>
      obtain ⟨haligned, text, behind, htext, hzero, rfl⟩ := on_inlineString_of_variable hvariable h
      rw [hs.bits] at haligned htext
      exact ⟨_, .text hd hinline hkind haligned htext hzero, hs.cons_of_other hd hother _⟩
    case isFalse hkind =>
      obtain ⟨word, u, hread, h⟩ := on_bind_eq_ok.mp h
      obtain ⟨_, rfl⟩ := on_lift_eq_ok h
      obtain rfl := on_inlineWord_of_variable hvariable hread
      exact ⟨_, .number hd hinline hkind, hs.cons_of_other hd hother _⟩
  cases hstorage : d.storage with
  | plain signed | immediate signed =>
    rw [hstorage] at h
    refine hinline signed ?_ ?_ h
    · rw [Descriptor.isInline, hstorage]
    · rw [Descriptor.isPalletArray, hstorage]
  | common default chunk =>
    rw [hstorage] at h
    cases h
  | pallet chunk =>
    rw [hstorage] at h
    obtain ⟨word, u, hread, h⟩ := on_bind_eq_ok.mp h
    obtain rfl := on_inlineWord_of_variable hvariable hread
    refine ⟨_, .pallet hd hstorage, ?_⟩
    have hother : d.isPalletArray = false := by rw [Descriptor.isPalletArray, hstorage]
    exact (hs.cons_of_other hd hother _).of_respects
      (c.respects_palletWord RowState.respects_string_after _ _ kind) h
  | palletArray chunk =>
    rw [hstorage] at h
    obtain ⟨stored, u, hindex, h⟩ := on_bind_eq_ok.mp h
    obtain ⟨count, htakes, hafter⟩ :=
      takes_of_on_palletArrayIndex hvariable hs hd hstorage hordered hindex
    dsimp only at h
    split at h
    case isTrue => cases h
    case isFalse =>
      refine ⟨count, htakes, hafter.of_respects ?_ h⟩
      exact c.respects_palletWord RowState.respects_string_after _ _ kind
  | relationship =>
    rw [hstorage] at h
    refine ⟨0, .relationship hd hstorage, ?_⟩
    have hother : d.isPalletArray = false := by rw [Descriptor.isPalletArray, hstorage]
    exact (hs.cons_of_other hd hother 0).of_respects
      (respects_wordScalar RowState.respects_string_after _ kind) h

end RowContext

namespace FieldPlan

theorem takes_of_on_bodyElement (hvariable : c.isVariable = true)
    (hs : s.After c data earlier cursor) (hordered : (slot.descriptor :: earlier).Pairwise (· ≥ ·))
    (hslot : slot ∈ SlotRun.flatten (SlotRun.ofDescriptors c.descriptors))
    {element : Option Scalar} (h : (bodyElement c kind slot).on s = (.ok element, t)) :
    ∃ count, c.Takes data earlier cursor kind slot count ∧
      t.After c data (slot.descriptor :: earlier) (cursor + count) := by
  unfold bodyElement at h
  split at h
  case isTrue hcommon =>
    obtain ⟨d, hd, hsame⟩ := SlotRun.exists_descriptor_of_mem hslot
    rw [hcommon] at hsame
    have hother : d.isPalletArray = false := by
      unfold Descriptor.isPalletArray
      unfold Descriptor.isCommon at hsame
      cases hstorage : d.storage <;> simp [hstorage] at hsame ⊢
    cases h
    exact ⟨0, .common hd hsame.symm, hs.cons_of_other hd hother 0⟩
  case isFalse =>
    obtain ⟨v, u, helement, h⟩ := on_bind_eq_ok.mp h
    cases h
    exact RowContext.takes_of_on_element hvariable hs hordered helement

theorem spends_of_on_bodyElement (hvariable : c.isVariable = true) {slots : List Slot}
    (hslots : slots ⊆ SlotRun.flatten (SlotRun.ofDescriptors c.descriptors))
    (hs : s.After c data earlier cursor)
    (hordered : (Slot.trail (slots.map fun slot => (kind, slot)) ++ earlier).Pairwise (· ≥ ·))
    {results : Elements} (h : (slots.mapM (bodyElement c kind)).on s = (.ok results, t)) :
    ∃ counts, c.Spends data earlier cursor (slots.map fun slot => (kind, slot)) counts ∧
      t.After c data (Slot.trail (slots.map fun slot => (kind, slot)) ++ earlier)
        (cursor + total counts) := by
  induction slots generalizing s earlier cursor results with
  | nil =>
    rw [List.mapM_nil] at h
    cases h
    exact ⟨[], .nil earlier cursor, hs⟩
  | cons slot slots ih =>
    rw [List.mapM_cons] at h
    obtain ⟨element, u, hfirst, h⟩ := on_bind_eq_ok.mp h
    obtain ⟨others, v, hothers, h⟩ := on_bind_eq_ok.mp h
    cases h
    rw [List.map_cons, Slot.trail_cons] at hordered ⊢
    obtain ⟨count, htakes, hafter⟩ := takes_of_on_bodyElement hvariable hs
      (List.pairwise_append.mp hordered).2.1 (hslots (List.mem_cons_self ..)) hfirst
    obtain ⟨counts, hspends, hlast⟩ := ih (fun other hother =>
      hslots (List.mem_cons_of_mem _ hother)) hafter hordered hothers
    refine ⟨count :: counts, .cons htakes hspends, ?_⟩
    rwa [total_cons, ← Nat.add_assoc]

theorem spends_of_on_bodyElements (hvariable : c.isVariable = true) {p : FieldPlan}
    (hslots : p.source.slotList ⊆ SlotRun.flatten (SlotRun.ofDescriptors c.descriptors))
    {external : Option UInt32} (hs : s.After c data earlier cursor)
    (hordered : (Slot.trail p.elements ++ earlier).Pairwise (· ≥ ·)) {results : Elements}
    (h : (p.bodyElements c external).on s = (.ok results, t)) :
    ∃ counts, c.Spends data earlier cursor p.elements counts ∧
      t.After c data (Slot.trail p.elements ++ earlier) (cursor + total counts) := by
  obtain ⟨kind, isArray, source⟩ := p
  cases source with
  | indexTable =>
    cases external with
    | none => cases h
    | some key =>
      obtain ⟨v, u, hlift, h⟩ := on_bind_eq_ok.mp h
      obtain ⟨_, rfl⟩ := on_lift_eq_ok hlift
      cases h
      exact ⟨[], .nil earlier cursor, hs⟩
  | slots slots => exact spends_of_on_bodyElement hvariable hslots hs hordered h

end FieldPlan

namespace Mapping

theorem spends_of_on_fields (hvariable : c.isVariable = true) {plans : List FieldPlan}
    (hslots : ∀ p ∈ plans,
      p.source.slotList ⊆ SlotRun.flatten (SlotRun.ofDescriptors c.descriptors))
    {external : Option UInt32} (hs : s.After c data earlier cursor)
    (hordered : (Slot.trail (plans.flatMap FieldPlan.elements) ++ earlier).Pairwise (· ≥ ·))
    {body : List Elements}
    (h : (plans.mapM (FieldPlan.bodyElements c external)).on s = (.ok body, t)) :
    ∃ counts, c.Spends data earlier cursor (plans.flatMap FieldPlan.elements) counts ∧
      t.After c data (Slot.trail (plans.flatMap FieldPlan.elements) ++ earlier)
        (cursor + total counts) := by
  -- What the fields so far have left behind is the cursor and the order of what has been read.
  induction plans generalizing s earlier cursor body with
  | nil =>
    rw [List.mapM_nil] at h
    cases h
    exact ⟨[], .nil earlier cursor, hs⟩
  | cons p plans ih =>
    rw [List.mapM_cons] at h
    obtain ⟨results, u, hfirst, h⟩ := on_bind_eq_ok.mp h
    obtain ⟨others, v, hothers, h⟩ := on_bind_eq_ok.mp h
    cases h
    rw [List.flatMap_cons, Slot.trail_append, List.append_assoc] at hordered ⊢
    obtain ⟨counts, hspends, hafter⟩ := FieldPlan.spends_of_on_bodyElements hvariable
      (hslots p (List.mem_cons_self ..)) hs (List.pairwise_append.mp hordered).2.1 hfirst
    obtain ⟨more, hmore, hlast⟩ := ih (fun other hother =>
      hslots other (List.mem_cons_of_mem _ hother)) hafter hordered hothers
    refine ⟨counts ++ more, hspends.append hmore, ?_⟩
    rwa [total_append, ← Nat.add_assoc]

end Mapping

theorem SlotRun.pairwise_flatten_runsFrom (first : Nat) (descriptors : List Descriptor) :
    (∀ slot ∈ flatten (runsFrom first descriptors), first ≤ slot.descriptor) ∧
      (flatten (runsFrom first descriptors)).Pairwise fun a b => a.descriptor ≤ b.descriptor := by
  induction descriptors generalizing first with
  | nil => exact ⟨nofun, .nil⟩
  | cons d descriptors ih =>
    obtain ⟨hbehind, hordered⟩ := ih (first + 1)
    have hrun : ∀ slot ∈ (ofDescriptor d first).slots, slot.descriptor = first := by
      intro slot hslot
      obtain ⟨element, _, rfl⟩ := List.mem_map.mp hslot
      rfl
    rw [runsFrom_cons, flatten, List.flatMap_cons]
    constructor
    · intro slot hslot
      rcases List.mem_append.mp hslot with hslot | hslot
      · exact Nat.le_of_eq (hrun slot hslot).symm
      · exact Nat.le_of_succ_le (hbehind slot hslot)
    · refine List.pairwise_append.mpr ⟨?_, hordered, ?_⟩
      · refine List.pairwise_of_forall_mem_list fun a ha b hb => ?_
        rw [hrun a ha, hrun b hb]
      · intro a ha b hb
        rw [hrun a ha]
        exact Nat.le_of_succ_le (hbehind b hb)

namespace Mapping

variable {schema : Schema} {column : Nat} {indexed : Bool} {m : Mapping}
  {external : Option UInt32}

theorem reverse_trail_elements (m : Mapping) :
    (Slot.trail m.elements).reverse = m.slots.map Slot.descriptor := by
  rw [Slot.trail, List.reverse_reverse, elements, slots, List.map_flatMap, List.map_flatMap]
  congr
  funext p
  simp [FieldPlan.elements]

theorem Built.pairwise_trail {descriptors : List Descriptor}
    (h : Built schema descriptors column indexed m) :
    (Slot.trail m.elements).Pairwise (· ≥ ·) := by
  obtain ⟨left, hleft⟩ := h.slots_append
  have hordered : (m.slots ++ left).Pairwise fun a b => a.descriptor ≤ b.descriptor := by
    rw [hleft]
    exact (SlotRun.pairwise_flatten_runsFrom 0 descriptors).2
  rw [← List.pairwise_reverse, reverse_trail_elements, List.pairwise_map]
  exact (List.pairwise_append.mp hordered).1

theorem cursor_of_on_values (hvariable : c.isVariable = true) {values : List Value}
    (h : (m.values c external).on s = (.ok values, t)) :
    ∃ body u, (m.fields.mapM (FieldPlan.bodyElements c external)).on s = (.ok body, u) ∧
      t.bits = u.bits := by
  obtain ⟨body, u, hbody, h⟩ := on_bind_eq_ok.mp h
  have htexts := Decode.respects_string_of_put (I := fun s => s.bits = u.bits) fun _ _ => id
  have hkey := m.respects_bodyKey (R := fun s t => s = t ∧ s.bits = u.bits)
    (fun hfixed => by rw [hvariable] at hfixed; cases hfixed) body
  obtain ⟨_, _, _, hbits⟩ :=
    (respects_finish c htexts hkey external).on_eq_ok (t := u) ⟨rfl, rfl⟩ h
  exact ⟨body, u, hbody, hbits⟩

/-- A row of variable size that decodes has taken up the bits of its elements, each of them as its
stored field asks for, and no others. Before and after every element, and where the decoding of the
row ends or fails, the cursor is in the row or at its end. -/
theorem values_spends (hbuild : build schema c.descriptors column indexed = .ok m)
    (hvariable : c.isVariable = true) (external : Option UInt32) (data : Bytes)
    (strings : StringTable) :
    (∀ values t, (m.values c external).on (.start data strings) = (.ok values, t) →
      ∃ counts, c.Spends data [] 0 m.elements counts ∧ t.bits.cursor = total counts) ∧
    (∀ kind slot t, m.Reaches c external (.start data strings) kind slot t →
      t.bits.cursor ≤ 8 * data.length ∧
      ((c.element slot.descriptor slot.element kind).on t).2.bits.cursor ≤ 8 * data.length) ∧
    ((m.values c external).on (.start data strings)).2.bits.cursor ≤ 8 * data.length := by
  have hbuilt := built_of_build hbuild
  have hstart : RowState.After c data [] 0 (.start data strings) := ⟨rfl, rfl⟩
  have haligns := RowContext.aligns_within hvariable data
  refine ⟨fun values t hvalues => ?_, fun kind slot t hreaches => ?_, ?_⟩
  · obtain ⟨body, u, hbody, hbits⟩ := cursor_of_on_values hvariable hvalues
    have hslots : ∀ p ∈ m.fields,
        p.source.slotList ⊆ SlotRun.flatten (SlotRun.ofDescriptors c.descriptors) :=
      fun p hp slot hslot => hbuilt.mem_flatten hp hslot
    obtain ⟨counts, hspends, hafter⟩ := spends_of_on_fields hvariable hslots hstart
      (by rw [List.append_nil]; exact hbuilt.pairwise_trail) hbody
    refine ⟨counts, hspends, ?_⟩
    rw [hbits, hafter.bits, Nat.zero_add]
  · obtain ⟨hdata, hcursor⟩ := hreaches.within hvariable (Nat.zero_le _)
    have helement := haligns.respects_element slot.descriptor slot.element kind t t
      ⟨rfl, hdata, hcursor⟩
    exact ⟨hcursor, helement.2.2.2⟩
  · exact (haligns.respects_values m external _ _ ⟨rfl, rfl, Nat.zero_le _⟩).2.2.2

theorem values_spends_manyKinds :
    let c : RowContext := {
      descriptors := [⟨0, 8, 1, .plain false⟩, ⟨8, 32, 1, .plain false⟩,
        ⟨40, 4, 1, .pallet ⟨0, 8⟩⟩, ⟨44, 4, 2, .palletArray ⟨0, 8⟩⟩, ⟨48, 0, 1, .common 6 .none⟩,
        ⟨48, 0, 1, .relationship⟩]
      index := 0, offset := 0, isVariable := true, hasRelativeStrings := false
      stringBlockStart := 0, relationships := none, pallet := some ⟨[3, 0, 0, 0, 4, 0, 0, 0]⟩
      common := none }
    let schema : Schema := ⟨[.scalar "id" .u8, .scalar "name" .text, .scalar "one" .u8,
      .array "two" .u8 2, .scalar "rare" .u8, .scalar "parent" .u32]⟩
    ∃ m values t, build schema c.descriptors 0 false = .ok m ∧
      (m.values c none).on (.start [7, 65, 0, 1] (.ofBytes [] false)) = (.ok values, t) ∧
      values = [.scalar (.int ⟨.w8, false⟩ 7), .scalar (.text "A"), .scalar (.int ⟨.w8, false⟩ 4),
        .array [.scalar (.int ⟨.w8, false⟩ 3), .scalar (.int ⟨.w8, false⟩ 4)],
        .scalar (.int ⟨.w8, false⟩ 6), .scalar (.int ⟨.w32, false⟩ 0)] ∧
      t.bits.cursor = 32 ∧ ∃ counts, c.Spends [7, 65, 0, 1] [] 0 m.elements counts ∧
        total counts = 32 := by
  intro c schema
  let m : Mapping := ⟨[⟨.u8, false, .slots [⟨0, 0, false⟩]⟩, ⟨.text, false, .slots [⟨1, 0, false⟩]⟩,
    ⟨.u8, false, .slots [⟨2, 0, false⟩]⟩, ⟨.u8, true, .slots [⟨3, 0, false⟩, ⟨3, 1, false⟩]⟩,
    ⟨.u8, false, .slots [⟨4, 0, true⟩]⟩, ⟨.u32, false, .slots [⟨5, 0, false⟩]⟩], some 0, some 0⟩
  have hbuild : build schema c.descriptors 0 false = .ok m := by decide +kernel
  have hvalues : (m.values c none).on (.start [7, 65, 0, 1] (.ofBytes [] false)) =
      (.ok [.scalar (.int ⟨.w8, false⟩ 7), .scalar (.text "A"), .scalar (.int ⟨.w8, false⟩ 4),
        .array [.scalar (.int ⟨.w8, false⟩ 3), .scalar (.int ⟨.w8, false⟩ 4)],
        .scalar (.int ⟨.w8, false⟩ 6), .scalar (.int ⟨.w32, false⟩ 0)],
        ⟨⟨[7, 65, 0, 1], 32⟩, some (3, 0), .ofBytes [] false⟩) := by
    decide +kernel
  obtain ⟨hspends, -, -⟩ := values_spends hbuild rfl none [7, 65, 0, 1] (.ofBytes [] false)
  obtain ⟨counts, hcounts, htotal⟩ := hspends _ _ hvalues
  exact ⟨m, _, _, hbuild, hvalues, rfl, rfl, counts, hcounts, htotal.symm⟩

end Mapping

end ClientTable
