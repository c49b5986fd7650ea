import ClientTable.Proofs.MachineRows
import ClientTable.Proofs.RowFailures

namespace ClientTable

open Attempt

/-- Both readers are one reader of the row, whose cursor is in the row or at its end. -/
def BitReader.Within (data : Bytes) (r q : BitReader) : Prop :=
  r = q ∧ r.data = data ∧ r.cursor ≤ 8 * data.length

/-- Both states are one state of decoding the row, whose cursor is in the row or at its end. -/
def RowState.Within (data : Bytes) (s t : RowState) : Prop :=
  s = t ∧ s.bits.data = data ∧ s.bits.cursor ≤ 8 * data.length

def FieldPlan.bodyElement (c : RowContext) (kind : FieldKind) (slot : Slot) :
    Decode (Option Scalar) :=
  if slot.isCommon then return none
  else do return some (← c.element slot.descriptor slot.element kind)

/-- Decoding a row from the state `s` comes to a stored element of a field, and to the state `t`
before the element is read. -/
def Mapping.Reaches (m : Mapping) (c : RowContext) (external : Option UInt32) (s : RowState)
    (kind : FieldKind) (slot : Slot) (t : RowState) : Prop :=
  slot.isCommon = false ∧ ∃ before p after earlier later body middle elements,
    m.fields = before ++ p :: after ∧ p.kind = kind ∧ p.source = .slots (earlier ++ slot :: later) ∧
      (before.mapM (FieldPlan.bodyElements c external)).on s = (.ok body, middle) ∧
      (earlier.mapM (FieldPlan.bodyElement c kind)).on middle = (.ok elements, t)

/-- The element that is read next does not end in the row: a text has no zero byte before the end of
the row, or a number or an index in the pallet block has bits behind it. The index of a pallet array
is read with the first of its elements only. -/
inductive RowContext.Overruns (c : RowContext) (kind : FieldKind) (slot : Slot) (t : RowState) :
    Prop
  | text {d : Descriptor} (hd : c.descriptors[slot.descriptor]? = some d)
    (hinline : d.isInline = true) (hkind : kind = .text)
    (hrest : 0 ∉ t.bits.data.drop (t.bits.cursor / 8))
  | number {d : Descriptor} (hd : c.descriptors[slot.descriptor]? = some d)
    (hinline : d.isInline = true) (hkind : kind ≠ .text)
    (hrest : t.bits.size < t.bits.cursor + d.bitSize)
  | pallet {d : Descriptor} (hd : c.descriptors[slot.descriptor]? = some d)
    (hpallet : d.isPallet = true) (hread : t.palletIndex.map Prod.fst ≠ some slot.descriptor)
    (hrest : t.bits.size < t.bits.cursor + d.bitSize)

theorem terminated?_eq_none {bytes : Bytes} (h : 0 ∉ bytes) : terminated? bytes = none := by
  rw [Machine.terminated?_eq_map, Option.map_eq_none_iff, List.findIdx?_eq_none_iff]
  rintro b hb
  exact decide_eq_false fun hzero => h (hzero ▸ hb)

theorem terminated?_of_mem {bytes : Bytes} (h : 0 ∈ bytes) :
    terminated? bytes = some (bytes.takeWhile (· ≠ 0)) := by
  induction bytes with
  | nil => cases h
  | cons b bytes ih =>
      rw [terminated?]
      split
      case isTrue hzero => simp [hzero]
      case isFalse hzero =>
        have hrest : 0 ∈ bytes := (List.mem_cons.mp h).resolve_left (Ne.symm hzero)
        rw [ih hrest, List.takeWhile_cons_of_pos (by simpa using hzero)]
        rfl

section Cursor

variable {α : Type} {data : Bytes} {s t : RowState} {c : RowContext}

theorem BitRead.within_word {r : BitReader} (hcursor : r.cursor ≤ 8 * r.data.length) (count : Nat)
    (signed : Bool) :
    ((word count signed).on r).2.data = r.data ∧
      ((word count signed).on r).2.cursor ≤ 8 * r.data.length := by
  rw [on_word]
  cases hword : r.readWordAt r.cursor count signed with
  | error e => exact ⟨rfl, hcursor⟩
  | ok value =>
    obtain ⟨number, hread, _⟩ := bind_eq_ok.mp hword
    exact ⟨rfl, BitReader.inside_of_readAt hread⟩

theorem BitRead.within_text {r : BitReader} (hcursor : r.cursor ≤ 8 * r.data.length) :
    (text.on r).2.data = r.data ∧ (text.on r).2.cursor ≤ 8 * r.data.length := by
  by_cases haligned : r.cursor % 8 = 0
  · rw [on_text_of_aligned haligned]
    cases hfound : terminated? (r.data.drop (r.cursor / 8)) with
    | none => exact ⟨rfl, hcursor⟩
    | some bytes =>
      have hlength := length_of_terminated? hfound
      rw [List.length_drop] at hlength
      refine ⟨rfl, ?_⟩
      dsimp only
      omega
  · rw [on_text_of_unaligned haligned]
    exact ⟨rfl, hcursor⟩

theorem Decode.respects_bits_of_within {read : BitRead α}
    (h : Respects (BitReader.Within data) read) :
    Respects (RowState.Within data) (Decode.bits read) := by
  refine h.focus ?_ ?_
  · rintro s _ ⟨rfl, hdata, hcursor⟩
    exact ⟨rfl, hdata, hcursor⟩
  · rintro s _ r _ ⟨rfl, _, _⟩ ⟨rfl, hdata, hcursor⟩
    exact ⟨rfl, hdata, hcursor⟩

theorem RowContext.Aligns.respects_bodyElement {R : RowState → RowState → Prop} (h : c.Aligns R)
    (kind : FieldKind) (slot : Slot) : Respects R (FieldPlan.bodyElement c kind slot) := by
  unfold FieldPlan.bodyElement
  split
  · exact respects_pure none
  · exact (h.respects_element _ _ kind).bind fun value => respects_pure _

variable (hvariable : c.isVariable = true)

include hvariable

theorem RowContext.aligns_within (data : Bytes) : c.Aligns (RowState.Within data) where
  words d element signed := by
    unfold inlineWord
    rw [hvariable, if_pos rfl]
    refine Decode.respects_bits_of_within ?_
    rintro r _ ⟨rfl, rfl, hcursor⟩
    exact ⟨rfl, rfl, BitRead.within_word hcursor d.bitSize signed⟩
  inlineTexts d element := by
    unfold inlineString
    rw [hvariable, if_pos rfl]
    refine (Decode.respects_bits_of_within ?_).bind fun text => respects_pure _
    rintro r _ ⟨rfl, rfl, hcursor⟩
    exact ⟨rfl, rfl, BitRead.within_text hcursor⟩
  texts := Decode.respects_string_of_put fun _ _ => id
  palletIndex h := congrArg RowState.palletIndex h.1
  put palletIndex h := ⟨congrArg (fun s => { s with palletIndex }) h.1, h.2⟩

theorem Mapping.Reaches.within {m : Mapping} {external : Option UInt32} {kind : FieldKind}
    {slot : Slot} (h : m.Reaches c external s kind slot t)
    (hcursor : s.bits.cursor ≤ 8 * s.bits.data.length) :
    t.bits.data = s.bits.data ∧ t.bits.cursor ≤ 8 * s.bits.data.length := by
  obtain ⟨-, before, p, after, earlier, later, body, middle, elements, -, -, -, hbefore,
    hearlier⟩ := h
  have haligns := RowContext.aligns_within hvariable s.bits.data
  have hmiddle := (respects_mapM (haligns.respects_bodyElements external) before s s
    ⟨rfl, rfl, hcursor⟩).2
  rw [hbefore] at hmiddle
  have hends := (respects_mapM (haligns.respects_bodyElement kind) earlier middle middle
    hmiddle).2
  rw [hearlier] at hends
  exact hends.2

end Cursor

theorem Attempt.mapM_append_fails {σ α β : Type} {f : α → Attempt σ β} {before after : List α}
    {a : α} {results : List β} {s t : σ} {e : Error}
    (hbefore : (before.mapM f).on s = (.ok results, t)) (ha : ((f a).on t).1 = .error e) :
    (((before ++ a :: after).mapM f).on s).1 = .error e := by
  induction before generalizing s results with
  | nil =>
    cases hbefore
    rw [List.nil_append, List.mapM_cons]
    exact on_bind_eq_error.mpr (.inl ha)
  | cons first before ih =>
    rw [List.mapM_cons] at hbefore
    obtain ⟨b, u, hfirst, hbefore⟩ := on_bind_eq_ok.mp hbefore
    obtain ⟨others, v, hothers, hbefore⟩ := on_bind_eq_ok.mp hbefore
    cases hbefore
    rw [List.cons_append, List.mapM_cons]
    refine on_bind_eq_error.mpr (.inr ⟨b, u, hfirst, ?_⟩)
    exact on_bind_eq_error.mpr (.inl (ih hothers))

theorem RowContext.on_descriptor_bind {c : RowContext} {index : Nat} {d : Descriptor}
    (hd : c.descriptors[index]? = some d) {α : Type} (f : Descriptor → Decode α) (t : RowState) :
    ((liftM (c.descriptor index) >>= f : Decode α)).on t = (f d).on t := by
  unfold descriptor
  rw [hd]
  rfl

section Inline

variable {c : RowContext} {index : Nat} {d : Descriptor} (hd : c.descriptors[index]? = some d)
  (hinline : d.isInline = true)

include hd hinline

theorem RowContext.on_element_text (element : Nat) (t : RowState) :
    (c.element index element .text).on t = (c.inlineString d element).on t := by
  unfold RowContext.element
  rw [on_descriptor_bind hd]
  cases hstorage : d.storage with
  | plain signed | immediate signed => rfl
  | _ =>
    rw [Descriptor.isInline, hstorage] at hinline
    cases hinline

theorem RowContext.on_element_number {kind : FieldKind} (hkind : kind ≠ .text) (element : Nat)
    (t : RowState) : (c.element index element kind).on t =
      (do Scalar.ofWord (← c.inlineWord d element d.isSigned) kind : Decode Scalar).on t := by
  unfold RowContext.element
  rw [on_descriptor_bind hd]
  cases hstorage : d.storage with
  | plain signed | immediate signed =>
    dsimp only
    rw [if_neg hkind, Descriptor.isSigned, hstorage]
  | _ =>
    rw [Descriptor.isInline, hstorage] at hinline
    cases hinline

end Inline

theorem Mapping.Reaches.values_fails {c : RowContext} {kind : FieldKind} {slot : Slot}
    {s t : RowState} {m : Mapping} {external : Option UInt32} {e : Error}
    (h : m.Reaches c external s kind slot t)
    (hfails : ((c.element slot.descriptor slot.element kind).on t).1 = .error e) :
    ((m.values c external).on s).1 = .error e := by
  obtain ⟨hstored, before, p, after, earlier, later, body, middle, elements, hfields, rfl, hsource,
    hbefore, hearlier⟩ := h
  have helement : ((FieldPlan.bodyElement c p.kind slot).on t).1 = .error e := by
    unfold FieldPlan.bodyElement
    rw [hstored, if_neg Bool.false_ne_true]
    exact on_bind_eq_error.mpr (.inl hfails)
  have hfield : ((FieldPlan.bodyElements c external p).on middle).1 = .error e := by
    unfold FieldPlan.bodyElements
    rw [hsource]
    exact mapM_append_fails hearlier helement
  unfold values
  rw [hfields]
  exact on_bind_eq_error.mpr (.inl (mapM_append_fails hbefore hfield))

section Overruns

variable {c : RowContext} {kind : FieldKind} {slot : Slot} {s t : RowState}
  (hvariable : c.isVariable = true)

include hvariable

theorem RowContext.inlineWord_overruns {d : Descriptor}
    (hrest : t.bits.size < t.bits.cursor + d.bitSize) (element : Nat) (signed : Bool) :
    ∃ fault, ((c.inlineWord d element signed).on t).1 = .error (.invalid fault) := by
  have hread : ∃ fault, t.bits.readAt t.bits.cursor d.bitSize = .error (.invalid fault) := by
    unfold BitReader.readAt
    split
    · exact ⟨_, rfl⟩
    · exact ⟨_, rfl⟩
  obtain ⟨fault, hfault⟩ := hread
  refine ⟨fault, ?_⟩
  unfold inlineWord
  rw [hvariable, if_pos rfl, Decode.bits, on_focus, BitRead.on_word, BitReader.readWordAt, hfault]
  rfl

theorem RowContext.inlineString_overruns (d : Descriptor) (element : Nat)
    (hrest : 0 ∉ t.bits.data.drop (t.bits.cursor / 8)) :
    ∃ fault, ((c.inlineString d element).on t).1 = .error (.invalid fault) := by
  have htext : ∃ fault, (BitRead.text.on t.bits).1 = .error (.invalid fault) := by
    by_cases haligned : t.bits.cursor % 8 = 0
    · rw [BitRead.on_text_of_aligned haligned, terminated?_eq_none hrest]
      exact ⟨_, rfl⟩
    · rw [BitRead.on_text_of_unaligned haligned]
      exact ⟨_, rfl⟩
  obtain ⟨fault, hfault⟩ := htext
  refine ⟨fault, ?_⟩
  unfold inlineString
  rw [hvariable, if_pos rfl, Decode.bits]
  exact on_bind_eq_error.mpr (.inl hfault)

theorem RowContext.palletArrayIndex_overruns {index : Nat} {d : Descriptor}
    (hread : t.palletIndex.map Prod.fst ≠ some index)
    (hrest : t.bits.size < t.bits.cursor + d.bitSize) :
    ∃ fault, ((c.palletArrayIndex index d).on t).1 = .error (.invalid fault) := by
  obtain ⟨fault, hfault⟩ := inlineWord_overruns hvariable hrest 0 false
  have hindex : ((palletArrayIndex.readIndex c index d).on t).1 = .error (.invalid fault) :=
    on_bind_eq_error.mpr (.inl hfault)
  refine ⟨fault, ?_⟩
  unfold palletArrayIndex
  rw [on_bind_of_ok (on_get t)]
  rcases hcached : t.palletIndex with - | ⟨cached, stored⟩
  · exact hindex
  · rw [hcached] at hread
    dsimp only
    rw [if_neg fun hsame => hread (congrArg some hsame)]
    exact hindex

theorem RowContext.element_overruns (h : c.Overruns kind slot t) :
    ∃ fault, ((c.element slot.descriptor slot.element kind).on t).1 = .error (.invalid fault) := by
  cases h with
  | @text d hd hinline hkind hrest =>
    obtain ⟨fault, hfault⟩ := inlineString_overruns hvariable d slot.element hrest
    exact ⟨fault, by rw [hkind, on_element_text hd hinline, hfault]⟩
  | @number d hd hinline hkind hrest =>
    obtain ⟨fault, hfault⟩ := inlineWord_overruns hvariable hrest slot.element d.isSigned
    refine ⟨fault, ?_⟩
    rw [on_element_number hd hinline hkind]
    exact on_bind_eq_error.mpr (.inl hfault)
  | @pallet d hd hpallet hread hrest =>
    unfold element
    rw [on_descriptor_bind hd]
    cases hstorage : d.storage with
    | pallet chunk =>
      obtain ⟨fault, hfault⟩ := inlineWord_overruns hvariable hrest slot.element false
      exact ⟨fault, on_bind_eq_error.mpr (.inl hfault)⟩
    | palletArray chunk =>
      obtain ⟨fault, hfault⟩ := palletArrayIndex_overruns hvariable hread hrest
      exact ⟨fault, on_bind_eq_error.mpr (.inl hfault)⟩
    | _ =>
      rw [Descriptor.isPallet, hstorage] at hpallet
      cases hpallet

end Overruns

end ClientTable
