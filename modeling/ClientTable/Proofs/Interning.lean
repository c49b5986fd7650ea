import ClientTable.Proofs.Attempt
import ClientTable.Section

namespace ClientTable

open Attempt

namespace StringTable

/-- A table of a block. The texts that it keeps are those of the block. -/
structure Keeps (bytes : Bytes) (t : StringTable) : Prop where
  bytes_eq : t.bytes = bytes
  textAt_eq : ∀ offset text, t.found? offset = some text → textAt bytes offset = .ok text

theorem keeps_ofBytes (bytes : Bytes) (intern : Bool) : (ofBytes bytes intern).Keeps bytes where
  bytes_eq := rfl
  textAt_eq offset text h := by
    cases intern <;> cases h

theorem found?_keep (t : StringTable) (offset : UInt32) (text : String) (other : UInt32) :
    (t.keep offset text).found? other =
      if other = offset then t.found.map fun _ => text else t.found? other := by
  cases hfound : t.found with
  | none => simp [found?, keep, hfound]
  | some texts =>
      by_cases h : other = offset
      · simp [found?, keep, hfound, h]
      · have hne : (other == offset) = false := by simpa using h
        simp [found?, keep, hfound, List.lookup_cons, h, hne]

theorem Keeps.keep {bytes : Bytes} {t : StringTable} (h : t.Keeps bytes) {offset : UInt32}
    {text : String} (htext : textAt bytes offset = .ok text) :
    (t.keep offset text).Keeps bytes where
  bytes_eq := h.bytes_eq
  textAt_eq other found hfound := by
    rw [found?_keep] at hfound
    split at hfound
    case isTrue heq =>
      subst other
      obtain ⟨_, _, rfl⟩ := Option.map_eq_some_iff.mp hfound
      exact htext
    case isFalse hne => exact h.textAt_eq other found hfound

theorem Keeps.on_resolve {bytes : Bytes} {t : StringTable} (h : t.Keeps bytes)
    (offset : UInt32) :
    ((resolve offset).on t).1 = textAt bytes offset ∧ ((resolve offset).on t).2.Keeps bytes := by
  cases hfound : t.found? offset with
  | some text =>
      rw [on_resolve_of_found hfound]
      exact ⟨(h.textAt_eq offset text hfound).symm, h⟩
  | none =>
      rw [on_resolve_of_not_found hfound, h.bytes_eq]
      cases htext : textAt bytes offset with
      | error e => exact ⟨rfl, h⟩
      | ok text => exact ⟨rfl, h.keep htext⟩

theorem respects_resolve (bytes : Bytes) (offset : UInt32) :
    Respects (fun t u => t.Keeps bytes ∧ u.Keeps bytes) (resolve offset) := by
  rintro t u ⟨ht, hu⟩
  obtain ⟨htext, htafter⟩ := ht.on_resolve offset
  obtain ⟨hutext, huafter⟩ := hu.on_resolve offset
  exact ⟨htext.trans hutext.symm, htafter, huafter⟩

end StringTable

/-- States of one row that differ in nothing but the texts kept from a block. -/
structure RowState.Alike (bytes : Bytes) (s t : RowState) : Prop where
  bits : s.bits = t.bits
  palletIndex : s.palletIndex = t.palletIndex
  left : s.strings.Keeps bytes
  right : t.strings.Keeps bytes

/-- States from which texts of a block can be looked up, whatever else they have in common. -/
structure RowState.Textual (bytes : Bytes) (R : RowState → RowState → Prop) : Prop where
  keeps : ∀ {s t}, R s t → s.strings.Keeps bytes ∧ t.strings.Keeps bytes
  put : ∀ {s t p q}, R s t → p.Keeps bytes → q.Keeps bytes →
    R { s with strings := p } { t with strings := q }

theorem RowState.textual_alike (bytes : Bytes) : Textual bytes (Alike bytes) where
  keeps h := ⟨h.left, h.right⟩
  put h hp hq := ⟨h.bits, h.palletIndex, hp, hq⟩

open RowState (Alike Textual textual_alike)

variable {bytes : Bytes} {R : RowState → RowState → Prop}

theorem Decode.respects_bits {α : Type} (read : BitRead α) :
    Respects (Alike bytes) (Decode.bits read) := by
  refine Respects.focus (Q := Eq) ?_ (fun s t h => h.bits) ?_
  · rintro r _ rfl
    exact ⟨rfl, rfl⟩
  · rintro s t p _ h rfl
    exact ⟨rfl, h.palletIndex, h.left, h.right⟩

theorem Decode.respects_string (hR : Textual bytes R) (offset : UInt32) :
    Respects R (Decode.string offset) := by
  refine ((StringTable.respects_resolve bytes offset).focus (fun s t h => hR.keeps h)
    ?_).bind fun text => respects_pure _
  rintro s t p q h ⟨hp, hq⟩
  exact hR.put h hp hq

theorem Decode.respects_string_of_put {I : RowState → Prop}
    (hput : ∀ s strings, I s → I { s with strings := strings }) (offset : UInt32) :
    Respects (fun s t => s = t ∧ I s) (Decode.string offset) := by
  refine Respects.bind ?_ fun text => respects_pure _
  rintro s _ ⟨rfl, hs⟩
  exact ⟨rfl, rfl, hput s _ hs⟩

section Lookups

variable (c : RowContext) (htexts : ∀ offset, Respects R (Decode.string offset))

include htexts

theorem RowContext.respects_wordScalar (word : UInt32) (kind : FieldKind) :
    Respects R (wordScalar word kind) := by
  cases kind with
  | text => exact htexts word
  | f64 => exact respects_pure _
  | f32 => exact respects_lift _
  | int kind => exact respects_lift _

theorem RowContext.respects_palletWord (chunk slot : Nat) (kind : FieldKind) :
    Respects R (do wordScalar (← (← c.palletTable).word chunk slot) kind) :=
  (respects_lift _).bind fun _ => (respects_lift _).bind fun word =>
    respects_wordScalar htexts word kind

theorem RowContext.respects_commonElement (index : Nat) (kind : FieldKind)
    (key : Option UInt32) : Respects R (c.commonElement index kind key) := by
  refine (respects_lift _).bind fun d => ?_
  cases d.storage with
  | common default chunk => exact respects_wordScalar htexts _ kind
  | _ => exact respects_throw _

theorem FieldPlan.respects_fillElements (key : Option UInt32) (kind : FieldKind)
    (slots : List Slot) (elements : Elements) :
    Respects R (fillElements c key kind slots elements) := by
  fun_induction fillElements c key kind slots elements with
  | case1 slot slots elements ih =>
      exact (c.respects_commonElement htexts _ kind key).bind fun value =>
        ih.bind fun rest => respects_pure _
  | case2 slot slots value elements ih => exact ih.bind fun rest => respects_pure _
  | case3 => exact respects_pure _

theorem Mapping.respects_fillFields (key : Option UInt32) (plans : List FieldPlan)
    (fields : List Elements) : Respects R (fillFields c key plans fields) := by
  fun_induction fillFields c key plans fields with
  | case1 p plans elements fields ih =>
      exact (FieldPlan.respects_fillElements c htexts key p.kind _ elements).bind fun filled =>
        ih.bind fun rest => respects_pure _
  | case2 => exact respects_pure _

theorem Mapping.respects_finish {m : Mapping} {body : List Elements}
    (hkey : Respects R (m.bodyKey c body)) (externalKey : Option UInt32) :
    Respects R (do
      if m.needsKey then
        let key ← match externalKey with
          | some key => pure (some key)
          | none => m.bodyKey c body
        fieldValues m.fields (← fillFields c key m.fields body)
      else
        fieldValues m.fields body) := by
  have hfilled (key : Option UInt32) :
      Respects R (do fieldValues m.fields (← fillFields c key m.fields body)) :=
    (respects_fillFields c htexts key m.fields body).bind fun filled => respects_lift _
  split
  · cases externalKey with
    | some key => exact (respects_pure _).bind hfilled
    | none => exact hkey.bind hfilled
  · exact respects_lift _

end Lookups

theorem RowContext.respects_inlineKey {c : RowContext}
    (hwords : ∀ d, Respects R (c.inlineWord d 0 false)) (index : Nat) :
    Respects R (c.inlineKey index) := by
  refine (respects_lift _).bind fun d => ?_
  cases d.storage with
  | plain _ | immediate _ => exact (hwords d).bind fun word => respects_pure _
  | _ => exact respects_throw _

theorem Mapping.respects_bodyKey {c : RowContext}
    (hwords : c.isVariable = false → ∀ d, Respects R (c.inlineWord d 0 false)) (m : Mapping)
    (fields : List Elements) : Respects R (m.bodyKey c fields) := by
  unfold bodyKey
  dsimp only
  split
  · exact respects_pure _
  · split
    case isTrue => exact respects_pure none
    case isFalse hfixed =>
      have hwords := hwords (Bool.eq_false_iff.mpr hfixed)
      exact (RowContext.respects_inlineKey hwords _).bind fun key => respects_pure _
  · exact respects_pure none

/-- States from which the numbers and texts in a row are read alike, and texts are looked up alike.
They agree on the index of a pallet array that is kept. -/
structure RowContext.Aligns (c : RowContext) (R : RowState → RowState → Prop) : Prop where
  words : ∀ d element signed, Respects R (c.inlineWord d element signed)
  inlineTexts : ∀ d element, Respects R (c.inlineString d element)
  texts : ∀ offset, Respects R (Decode.string offset)
  palletIndex : ∀ {s t}, R s t → s.palletIndex = t.palletIndex
  put : ∀ {s t} palletIndex, R s t → R { s with palletIndex } { t with palletIndex }

namespace RowContext.Aligns

variable {c : RowContext} (h : c.Aligns R)

include h

theorem respects_readIndex (index : Nat) (d : Descriptor) :
    Respects R (palletArrayIndex.readIndex c index d) :=
  (h.words d 0 false).bind fun _ =>
    (respects_modify fun _ _ hst => h.put _ hst).bind fun _ => respects_pure _

theorem respects_palletArrayIndex (index : Nat) (d : Descriptor) :
    Respects R (c.palletArrayIndex index d) := by
  refine respects_get_bind ?_ fun s => ?_
  · intro s t hst
    rw [h.palletIndex hst]
  · cases s.palletIndex with
    | none => exact h.respects_readIndex index d
    | some kept =>
        obtain ⟨cached, stored⟩ := kept
        dsimp only
        split
        · exact respects_pure stored
        · exact h.respects_readIndex index d

theorem respects_element (index element : Nat) (kind : FieldKind) :
    Respects R (c.element index element kind) := by
  refine (respects_lift _).bind fun d => ?_
  have inline (signed : Bool) : Respects R
      (if kind = .text then c.inlineString d element
        else do Scalar.ofWord (← c.inlineWord d element signed) kind) := by
    split
    · exact h.inlineTexts d element
    · exact (h.words d element signed).bind fun word => respects_lift _
  cases d.storage with
  | plain signed => exact inline signed
  | immediate signed => exact inline signed
  | common default chunk => exact respects_throw _
  | pallet chunk =>
      exact (h.words d element false).bind fun stored =>
        c.respects_palletWord h.texts chunk.start stored.toNat kind
  | palletArray chunk =>
      refine (h.respects_palletArrayIndex index d).bind fun stored => ?_
      dsimp only
      split
      · exact respects_throw_bind _ _
      · exact c.respects_palletWord h.texts chunk.start _ kind
  | relationship => exact respects_wordScalar h.texts _ kind

theorem respects_bodyElements (externalKey : Option UInt32) (p : FieldPlan) :
    Respects R (p.bodyElements c externalKey) := by
  unfold FieldPlan.bodyElements
  cases p.source with
  | indexTable =>
      cases externalKey with
      | none => exact respects_throw _
      | some key => exact (respects_lift _).bind fun value => respects_pure _
  | slots slots =>
      refine respects_mapM (fun slot => ?_) slots
      split
      · exact respects_pure none
      · exact (h.respects_element _ _ _).bind fun value => respects_pure _

theorem respects_bodyKey (m : Mapping) (fields : List Elements) :
    Respects R (m.bodyKey c fields) :=
  m.respects_bodyKey (fun _ d => h.words d 0 false) fields

theorem respects_values (m : Mapping) (externalKey : Option UInt32) :
    Respects R (m.values c externalKey) :=
  (respects_mapM (h.respects_bodyElements externalKey) m.fields).bind fun body =>
    Mapping.respects_finish c h.texts (h.respects_bodyKey m body) externalKey

end RowContext.Aligns

theorem RowContext.aligns_alike (c : RowContext) (bytes : Bytes) : c.Aligns (Alike bytes) where
  words d element signed := by
    unfold inlineWord
    split
    · exact Decode.respects_bits _
    · refine respects_get_bind ?_ fun s => respects_lift _
      intro s t h
      rw [h.bits]
  inlineTexts d element := by
    unfold inlineString
    split
    · exact (Decode.respects_bits _).bind fun text => respects_pure _
    · refine respects_get_bind ?_ fun s => (respects_lift _).bind fun stored =>
        (respects_lift _).bind fun offset => Decode.respects_string (textual_alike bytes) offset
      intro s t h
      rw [h.bits]
  texts := Decode.respects_string (textual_alike bytes)
  palletIndex h := h.palletIndex
  put _ h := ⟨h.bits, rfl, h.left, h.right⟩

end ClientTable
