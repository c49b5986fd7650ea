import ClientTable.Proofs.Failures
import ClientTable.Proofs.KeyFields

namespace ClientTable

open Attempt

namespace Descriptor

def isPallet (d : Descriptor) : Bool :=
  match d.storage with
  | .pallet _ | .palletArray _ => true
  | _ => false

/-- Whether the elements stand in the record as they are. -/
def isInline (d : Descriptor) : Bool :=
  match d.storage with
  | .plain _ | .immediate _ => true
  | _ => false

theorem recordBits_of_isInline {d : Descriptor} (h : d.isInline = true) :
    d.recordBits = d.bitSize * d.cardinality := by
  unfold isInline at h
  unfold recordBits
  cases hstorage : d.storage <;> simp [hstorage] at h ⊢

theorem isCommon_of_isInline {d : Descriptor} (h : d.isInline = true) : d.isCommon = false := by
  unfold isInline at h
  unfold isCommon
  cases hstorage : d.storage <;> simp [hstorage] at h ⊢

end Descriptor

theorem BitReader.throwsOnly_readAt (r : BitReader) (offset count : Nat) :
    ThrowsOnly Error.IsExternal (r.readAt offset count) := by
  unfold readAt
  split
  · exact throwsOnly_error rfl
  · split
    · exact throwsOnly_error rfl
    · exact throwsOnly_ok _

theorem BitReader.throwsOnly_readWordAt (r : BitReader) (offset count : Nat) (signed : Bool) :
    ThrowsOnly Error.IsExternal (r.readWordAt offset count signed) :=
  (r.throwsOnly_readAt offset count).bind fun _ _ => throwsOnly_ok _

theorem BitReader.throwsOnly_readAt_invalid (r : BitReader) (offset count : Nat) :
    ThrowsOnly (fun e => ∃ fault, e = .invalid fault) (r.readAt offset count) := by
  unfold readAt
  split
  · exact throwsOnly_error ⟨_, rfl⟩
  · split
    · exact throwsOnly_error ⟨_, rfl⟩
    · exact throwsOnly_ok _

theorem BitReader.throwsOnly_readWordAt_invalid (r : BitReader) (offset count : Nat)
    (signed : Bool) :
    ThrowsOnly (fun e => ∃ fault, e = .invalid fault) (r.readWordAt offset count signed) :=
  (r.throwsOnly_readAt_invalid offset count).bind fun _ _ => throwsOnly_ok _

theorem BitRead.failsOnly_word (count : Nat) (signed : Bool) :
    FailsOnly Error.IsExternal (word count signed) := by
  intro r
  have hread := r.throwsOnly_readWordAt r.cursor count signed
  rw [on_word]
  cases hword : r.readWordAt r.cursor count signed with
  | ok value => exact throwsOnly_ok value
  | error e =>
      rw [hword] at hread
      exact hread

theorem BitRead.failsOnly_text : FailsOnly Error.IsExternal text := by
  intro r
  by_cases haligned : r.cursor % 8 = 0
  · rw [on_text_of_aligned haligned]
    cases terminated? (r.data.drop (r.cursor / 8)) with
    | some bytes => exact throwsOnly_ok _
    | none => exact throwsOnly_error rfl
  · rw [on_text_of_unaligned haligned]
    exact throwsOnly_error rfl

theorem StringTable.throwsOnly_textAt (bytes : Bytes) (offset : UInt32) :
    ThrowsOnly Error.IsExternal (textAt bytes offset) := by
  unfold textAt
  split
  · exact throwsOnly_error rfl
  · cases terminated? (bytes.drop offset.toNat) with
    | some text => exact throwsOnly_ok _
    | none => exact throwsOnly_error rfl

theorem StringTable.failsOnly_resolve (offset : UInt32) :
    FailsOnly Error.IsExternal (resolve offset) := by
  refine failsOnly_get_bind fun t => ?_
  cases t.found? offset with
  | some text => exact failsOnly_pure text
  | none =>
      exact (failsOnly_lift (throwsOnly_textAt t.bytes offset)).bind fun text =>
        (failsOnly_modify _).bind fun _ => failsOnly_pure text

theorem Decode.failsOnly_string (offset : UInt32) : FailsOnly Error.IsExternal (string offset) :=
  (StringTable.failsOnly_resolve offset).focus.bind fun _ => failsOnly_pure _

theorem Scalar.throwsOnly_ofWord (word : BitVec 64) {kind : FieldKind} (hkind : kind ≠ .text) :
    ThrowsOnly Error.IsExternal (ofWord word kind) := by
  cases kind with
  | text => exact absurd rfl hkind
  | _ => exact throwsOnly_ok _

theorem PalletTable.throwsOnly_word (t : PalletTable) (chunk index : Nat) :
    ThrowsOnly Error.IsExternal (t.word chunk index) := by
  unfold word
  split
  · exact throwsOnly_error rfl
  · exact throwsOnly_ok _

namespace RowContext

variable {c : RowContext} {index : Nat} {d : Descriptor}

theorem failsOnly_inlineWord (c : RowContext) (d : Descriptor) (element : Nat) (signed : Bool) :
    FailsOnly Error.IsExternal (c.inlineWord d element signed) := by
  unfold inlineWord
  split
  · exact (BitRead.failsOnly_word d.bitSize signed).focus
  · exact failsOnly_get_bind fun s => failsOnly_lift (s.bits.throwsOnly_readWordAt _ _ _)

theorem throwsOnly_stringOffset (c : RowContext) (bit stored : Nat) :
    ThrowsOnly Error.IsExternal (c.stringOffset bit stored) := by
  unfold stringOffset
  split
  · dsimp only
    split
    · exact throwsOnly_error rfl
    · split
      · exact throwsOnly_error rfl
      · split
        · exact throwsOnly_error rfl
        · exact throwsOnly_ok _
  · exact throwsOnly_ok _

theorem failsOnly_inlineString (c : RowContext) (d : Descriptor) (element : Nat) :
    FailsOnly Error.IsExternal (c.inlineString d element) := by
  unfold inlineString
  split
  · exact BitRead.failsOnly_text.focus.bind fun _ => failsOnly_pure _
  · exact failsOnly_get_bind fun s => (failsOnly_lift (s.bits.throwsOnly_readAt _ _)).bind
      fun stored => (failsOnly_lift (c.throwsOnly_stringOffset _ stored)).bind
        Decode.failsOnly_string

theorem failsOnly_wordScalar (word : UInt32) (kind : FieldKind) :
    FailsOnly Error.IsExternal (wordScalar word kind) := by
  cases kind with
  | text => exact Decode.failsOnly_string word
  | f64 => exact failsOnly_pure _
  | f32 => exact failsOnly_lift (Scalar.throwsOnly_ofWord _ nofun)
  | int kind => exact failsOnly_lift (Scalar.throwsOnly_ofWord _ nofun)

theorem failsOnly_palletArrayIndex (c : RowContext) (index : Nat) (d : Descriptor) :
    FailsOnly Error.IsExternal (c.palletArrayIndex index d) := by
  have hread : FailsOnly Error.IsExternal (palletArrayIndex.readIndex c index d) :=
    (c.failsOnly_inlineWord d 0 false).bind fun word =>
      (failsOnly_modify _).bind fun _ => failsOnly_pure word.toNat
  refine failsOnly_get_bind fun s => ?_
  cases s.palletIndex with
  | none => exact hread
  | some cached =>
      dsimp only
      split
      · exact failsOnly_pure _
      · exact hread

theorem failsOnly_descriptor_bind {α : Type} {E : Error → Prop} {f : Descriptor → Decode α}
    (hd : c.descriptors[index]? = some d) (hf : FailsOnly E (f d)) :
    FailsOnly E (liftM (c.descriptor index) >>= f) := by
  unfold descriptor
  rw [hd]
  exact hf

/-- What reading an element can fail with: an error of the file, or the lack of the pallet block
that holds the element. -/
def ElementFailure (c : RowContext) (d : Descriptor) (e : Error) : Prop :=
  e.IsExternal ∨ e = .unsupported .palletWithoutBlock ∧ c.pallet = none ∧ d.isPallet = true

theorem failsOnly_palletWord (hpallet : d.isPallet = true) (chunk slot : Nat) (kind : FieldKind) :
    FailsOnly (c.ElementFailure d) (do wordScalar (← (← c.palletTable).word chunk slot) kind) := by
  have htable : ThrowsOnly (c.ElementFailure d) c.palletTable := by
    unfold palletTable
    cases htable : c.pallet with
    | some table => exact throwsOnly_ok table
    | none => exact throwsOnly_error (Or.inr ⟨rfl, htable, hpallet⟩)
  refine (failsOnly_lift htable).bind fun table => FailsOnly.bind ?_ fun word => ?_
  · exact failsOnly_lift fun e he => Or.inl (table.throwsOnly_word chunk slot e he)
  · exact (failsOnly_wordScalar word kind).mono fun _ => Or.inl

theorem failsOnly_element (hd : c.descriptors[index]? = some d) (hstored : d.isCommon = false)
    (element : Nat) (kind : FieldKind) :
    FailsOnly (c.ElementFailure d) (c.element index element kind) := by
  have inline (signed : Bool) : FailsOnly Error.IsExternal
      (if kind = .text then c.inlineString d element
        else do Scalar.ofWord (← c.inlineWord d element signed) kind) := by
    split
    case isTrue => exact c.failsOnly_inlineString d element
    case isFalse hkind =>
      exact (c.failsOnly_inlineWord d element signed).bind fun word =>
        failsOnly_lift (Scalar.throwsOnly_ofWord word hkind)
  refine failsOnly_descriptor_bind hd ?_
  cases hstorage : d.storage with
  | plain signed => exact (inline signed).mono fun _ => Or.inl
  | immediate signed => exact (inline signed).mono fun _ => Or.inl
  | common default chunk =>
      rw [Descriptor.isCommon, hstorage] at hstored
      cases hstored
  | pallet chunk =>
      have hpallet : d.isPallet = true := by
        rw [Descriptor.isPallet, hstorage]
      refine FailsOnly.bind ?_ fun stored => failsOnly_palletWord hpallet chunk.start _ kind
      exact (c.failsOnly_inlineWord d element false).mono fun _ => Or.inl
  | palletArray chunk =>
      have hpallet : d.isPallet = true := by
        rw [Descriptor.isPallet, hstorage]
      refine FailsOnly.bind ?_ fun stored => ?_
      · exact (c.failsOnly_palletArrayIndex index d).mono fun _ => Or.inl
      · dsimp only
        split
        · exact failsOnly_throw_bind (Or.inl (by rfl)) _
        · exact failsOnly_palletWord hpallet chunk.start _ kind
  | relationship => exact (failsOnly_wordScalar _ kind).mono fun _ => Or.inl

theorem failsOnly_commonElement (hd : c.descriptors[index]? = some d) (hcommon : d.isCommon = true)
    (kind : FieldKind) (key : Option UInt32) :
    FailsOnly Error.IsExternal (c.commonElement index kind key) := by
  refine failsOnly_descriptor_bind hd ?_
  cases hstorage : d.storage with
  | common default chunk => exact failsOnly_wordScalar _ kind
  | _ =>
      rw [Descriptor.isCommon, hstorage] at hcommon
      cases hcommon

theorem failsOnly_inlineKey (hd : c.descriptors[index]? = some d) :
    FailsOnly (fun e => e.IsExternal ∨ e = .unsupported .keyNotInline ∧ d.isInline = false)
      (c.inlineKey index) := by
  have inline : FailsOnly Error.IsExternal
      (do return UInt32.ofNat (← c.inlineWord d 0 false).toNat : Decode UInt32) :=
    (c.failsOnly_inlineWord d 0 false).bind fun _ => failsOnly_pure _
  refine failsOnly_descriptor_bind hd ?_
  unfold Descriptor.isInline
  cases d.storage with
  | plain signed => exact inline.mono fun _ => Or.inl
  | immediate signed => exact inline.mono fun _ => Or.inl
  | _ => exact failsOnly_throw (Or.inr ⟨rfl, rfl⟩)

end RowContext

namespace FieldPlan

variable {c : RowContext} {external key : Option UInt32} {p : FieldPlan}

/-- A field that a file can feed: its slots are those of descriptors, and it is a number if the
index table feeds it. -/
structure IsFed (descriptors : List Descriptor) (indexed : Bool) (p : FieldPlan) : Prop where
  stored : ∀ slot ∈ p.source.slotList,
    ∃ d, descriptors[slot.descriptor]? = some d ∧ slot.isCommon = d.isCommon
  listed : p.source = .indexTable → indexed = true ∧ p.kind ≠ .text

def UsesPallet (descriptors : List Descriptor) (p : FieldPlan) : Prop :=
  ∃ slot ∈ p.source.slotList,
    ∃ d, descriptors[slot.descriptor]? = some d ∧ d.isPallet = true

theorem failsOnly_bodyElements (hfed : p.IsFed c.descriptors external.isSome) :
    FailsOnly (fun e => e.IsExternal ∨
        e = .unsupported .palletWithoutBlock ∧ c.pallet = none ∧ p.UsesPallet c.descriptors)
      (p.bodyElements c external) := by
  obtain ⟨kind, isArray, source⟩ := p
  cases source with
  | indexTable =>
      obtain ⟨hindexed, hkind⟩ := hfed.listed rfl
      obtain ⟨entry, rfl⟩ := Option.isSome_iff_exists.mp hindexed
      refine FailsOnly.mono (E := Error.IsExternal) ?_ fun _ => Or.inl
      exact (failsOnly_lift (Scalar.throwsOnly_ofWord _ hkind)).bind fun _ => failsOnly_pure _
  | slots slots =>
      refine failsOnly_mapM fun slot hslot => ?_
      obtain ⟨d, hd, hcommon⟩ := hfed.stored slot hslot
      split
      case isTrue => exact failsOnly_pure none
      case isFalse hstored =>
        rw [hcommon, Bool.not_eq_true] at hstored
        refine FailsOnly.bind ?_ fun _ => failsOnly_pure _
        refine (RowContext.failsOnly_element hd hstored slot.element kind).mono fun e he => ?_
        exact he.imp_right fun ⟨hmissing, hnone, hpallet⟩ =>
          ⟨hmissing, hnone, slot, hslot, d, hd, hpallet⟩

theorem failsOnly_fillElements (hfed : p.IsFed c.descriptors external.isSome) {elements : Elements}
    (hstarted : p.Started external elements) :
    FailsOnly Error.IsExternal (fillElements c key p.kind p.source.slotList elements) := by
  obtain ⟨kind, isArray, source⟩ := p
  cases source with
  | indexTable => exact failsOnly_pure elements
  | slots slots =>
      change List.Forall₂ _ slots elements at hstarted
      change FailsOnly _ (fillElements c key kind slots elements)
      induction hstarted with
      | nil => exact failsOnly_pure []
      | @cons slot e slots elements hslot _ ih =>
          have hrest := ih ⟨fun other hother => hfed.stored other (List.mem_cons_of_mem _ hother),
            nofun⟩
          cases e with
          | none =>
              obtain ⟨d, hd, hcommon⟩ := hfed.stored slot (List.mem_cons_self ..)
              rw [hslot.mp rfl] at hcommon
              exact (RowContext.failsOnly_commonElement hd hcommon.symm kind key).bind fun _ =>
                hrest.bind fun _ => failsOnly_pure _
          | some v => exact hrest.bind fun _ => failsOnly_pure _

end FieldPlan

namespace Mapping

variable {m : Mapping} {c : RowContext} {texts : Bytes} {external key : Option UInt32}
  {column : Nat} {s : RowState} {e : Error}

/-- A mapping that fits the descriptors of a file and the index table of a section. -/
structure IsFed (descriptors : List Descriptor) (column : Nat) (indexed : Bool) (m : Mapping) :
    Prop where
  regular : ∀ p ∈ m.fields, p.IsRegular
  fields : ∀ p ∈ m.fields, p.IsFed descriptors indexed
  keyDescriptor : ∀ i, m.keyDescriptor? = some i →
    i = column ∧ ∃ d, descriptors[column]? = some d

/-- Whether an element of any field is stored in the pallet block. -/
def UsesPallet (descriptors : List Descriptor) (m : Mapping) : Prop :=
  ∃ p ∈ m.fields, p.UsesPallet descriptors

/-- The key of a row is needed, it has not been decoded as a field, and it does not stand in the row
as it is. -/
structure LacksKey (c : RowContext) (column : Nat) (s : RowState) (m : Mapping) : Prop where
  needed : m.needsKey = true
  undecoded : ∃ body t, (m.fields.mapM (FieldPlan.bodyElements c none)).on s = (.ok body, t) ∧
    m.decodedKey body = none
  elsewhere : ∃ d, c.descriptors[column]? = some d ∧ d.isInline = false

theorem failsOnly_body (hfed : m.IsFed c.descriptors column external.isSome) :
    FailsOnly (fun e => e.IsExternal ∨
        e = .unsupported .palletWithoutBlock ∧ c.pallet = none ∧ m.UsesPallet c.descriptors)
      (m.fields.mapM (FieldPlan.bodyElements c external)) := by
  refine failsOnly_mapM fun p hp => ?_
  refine (FieldPlan.failsOnly_bodyElements (hfed.fields p hp)).mono fun e he => ?_
  exact he.imp_right fun ⟨hmissing, hnone, hused⟩ => ⟨hmissing, hnone, p, hp, hused⟩

theorem failsOnly_fillFields {plans : List FieldPlan} {body : List Elements}
    (hfed : ∀ p ∈ plans, p.IsFed c.descriptors external.isSome)
    (hstarted : List.Forall₂ (FieldPlan.Started external) plans body) :
    FailsOnly Error.IsExternal (fillFields c key plans body) := by
  induction hstarted with
  | nil => exact failsOnly_pure []
  | @cons p elements plans body hfirst _ ih =>
      refine (FieldPlan.failsOnly_fillElements (hfed p (List.mem_cons_self ..)) hfirst).bind
        fun filled => ?_
      exact (ih fun q hq => hfed q (List.mem_cons_of_mem _ hq)).bind fun _ => failsOnly_pure _

/-- A key is looked for in the row only where the rows are of fixed size. -/
theorem bodyKey_failure (hfed : m.IsFed c.descriptors column external.isSome)
    {body : List Elements} (h : ((m.bodyKey c body).on s).1 = .error e) :
    e.IsExternal ∨ e = .unsupported .keyNotInline ∧ c.isVariable = false ∧
      m.decodedKey body = none ∧ ∃ d, c.descriptors[column]? = some d ∧ d.isInline = false := by
  cases hdecoded : m.decodedKey body with
  | some key =>
      unfold decodedKey at hdecoded
      unfold bodyKey at h
      dsimp only at h
      rw [hdecoded] at h
      cases h
  | none =>
      cases hdescriptor : m.keyDescriptor? with
      | none =>
          rw [bodyKey_of_unknown hdecoded (Or.inr hdescriptor)] at h
          cases h
      | some i =>
          cases hvariable : c.isVariable with
          | true =>
              rw [bodyKey_of_unknown hdecoded (Or.inl hvariable)] at h
              cases h
          | false =>
              obtain ⟨rfl, d, hd⟩ := hfed.keyDescriptor i hdescriptor
              rw [bodyKey_of_fixed hdecoded hdescriptor hvariable] at h
              have hinline := (RowContext.failsOnly_inlineKey hd).bind
                (f := fun key => (pure (some key) : Decode (Option UInt32)))
                fun key => failsOnly_pure _
              rcases hinline s e h with he | ⟨he, hd'⟩
              · exact Or.inl he
              · exact Or.inr ⟨he, rfl, rfl, d, hd, hd'⟩

/-- What decoding a row can fail with. -/
theorem values_failure (hfed : m.IsFed c.descriptors column external.isSome)
    (hs : s.strings.Keeps texts) (h : ((m.values c external).on s).1 = .error e) :
    e.IsExternal ∨
      (e = .unsupported .palletWithoutBlock ∧ c.pallet = none ∧ m.UsesPallet c.descriptors) ∨
      (e = .unsupported .keyNotInline ∧ external = none ∧ c.isVariable = false ∧
        m.LacksKey c column s) := by
  rcases on_bind_eq_error.mp h with hbody | ⟨body, t, hbody, h⟩
  · rcases failsOnly_body hfed s e hbody with he | hpallet
    · exact Or.inl he
    · exact Or.inr (Or.inl hpallet)
  · have hstarted : List.Forall₂ (FieldPlan.Started external) m.fields body :=
      forall₂_of_on_mapM (fun _ _ _ _ => FieldPlan.started_of_on_bodyElements) hbody
    have ht := hs.of_respects
      (respects_mapM ((c.aligns_alike texts).respects_bodyElements external) m.fields)
    rw [hbody] at ht
    -- With the common data filled in, the elements make up the values of the row.
    have hfill {key : Option UInt32} {u : RowState} (hu : u.strings.Keeps texts)
        (h : ((do let filled ← fillFields c key m.fields body; liftM (fieldValues m.fields filled) :
          Decode (List Value)).on u).1 = .error e) : e.IsExternal := by
      rcases on_bind_eq_error.mp h with hfilled | ⟨filled, v, hfilled, h⟩
      · exact failsOnly_fillFields hfed.fields hstarted u e hfilled
      · obtain ⟨fields, rfl, hshapes, _⟩ := on_fillFields hstarted hfed.regular hu hfilled
        rw [on_lift, fieldValues_of_shapes hshapes] at h
        cases h
    cases hneeds : m.needsKey with
    | false =>
        rw [hneeds, if_neg Bool.false_ne_true] at h
        have hall := @exists_allFilled_of_started c texts external none m.fields body hstarted
          hfed.regular hneeds
        obtain ⟨fields, rfl, hshapes, _⟩ := hall
        rw [on_lift, fieldValues_of_shapes hshapes] at h
        cases h
    | true =>
        rw [hneeds, if_pos rfl] at h
        cases external with
        | some entry => exact Or.inl (hfill ht h)
        | none =>
            rcases on_bind_eq_error.mp h with hkey | ⟨key, u, hkey, h⟩
            · rcases bodyKey_failure hfed hkey with he | ⟨he, hfixed, hdecoded, helsewhere⟩
              · exact Or.inl he
              · exact Or.inr (Or.inr ⟨he, rfl, hfixed, hneeds, ⟨body, t, hbody, hdecoded⟩,
                  helsewhere⟩)
            · have hu := ht.of_respects ((c.aligns_alike texts).respects_bodyKey m body)
              rw [hkey] at hu
              exact Or.inl (hfill hu h)

theorem exists_of_source_eq_indexTable {schema : Schema} {descriptors : List Descriptor}
    {indexed : Bool} (h : Built schema descriptors column indexed m) {p : FieldPlan}
    (hp : p ∈ m.fields) (hsource : p.source = .indexTable) :
    indexed = true ∧ ∃ f, schema.fields[column]? = some f ∧ p.kind = f.kind := by
  obtain ⟨i, hi, rfl⟩ := List.mem_iff_getElem.mp hp
  have hf := List.getElem?_eq_getElem (h.length_eq ▸ hi)
  obtain ⟨q, hq, hserves⟩ := h.serves hf
  rw [List.getElem?_eq_getElem hi] at hq
  obtain rfl := Option.some.inj hq
  by_cases hposition : (if indexed then some column else none) = some i
  · rw [Serves, if_pos hposition] at hserves
    cases indexed with
    | true =>
        cases hposition
        exact ⟨rfl, _, hf, by rw [hserves]⟩
    | false => cases hposition
  · rw [Serves, if_neg hposition] at hserves
    obtain ⟨slots, hslots, _⟩ := hserves
    rw [hslots] at hsource
    cases hsource

/-- A mapping that has been built fits what it has been built for. -/
theorem isFed_of_build {schema : Schema} {descriptors : List Descriptor} {indexed : Bool}
    (h : build schema descriptors column indexed = .ok m) : m.IsFed descriptors column indexed := by
  have hbuilt := built_of_build h
  refine ⟨hbuilt.isRegular, fun p hp => ⟨fun slot hslot => ?_, fun hsource => ?_⟩, fun i hi => ?_⟩
  · exact hbuilt.exists_descriptor hp hslot
  · obtain ⟨rfl, f, hf, hkind⟩ := exists_of_source_eq_indexTable hbuilt hp hsource
    refine ⟨rfl, ?_⟩
    obtain ⟨_, hcheck, _⟩ := bind_eq_ok.mp h
    unfold checkIndexField at hcheck
    rw [hf] at hcheck
    dsimp only at hcheck
    split at hcheck
    case isTrue => cases hcheck
    case isFalse hnumber =>
      rw [hkind]
      exact fun htext => hnumber (Or.inl htext)
  · rw [hbuilt.keyDescriptor] at hi
    cases indexed with
    | true => cases hi
    | false =>
        rw [if_neg Bool.false_ne_true] at hi
        split at hi
        case isTrue hinside =>
          cases hi
          exact ⟨rfl, _, List.getElem?_eq_getElem hinside⟩
        case isFalse => cases hi

end Mapping

end ClientTable
