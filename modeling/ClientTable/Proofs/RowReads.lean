import ClientTable.Proofs.RowFailures

/-!
The bits of a row that its decoding looks at. Which they are is settled by the mapping and the
descriptors before anything has been read. Two ways of reading them that answer alike decode to the
same values, or fail alike.
-/

namespace ClientTable

namespace Attempt

variable {σ α β : Type} {E : Error → Prop} {P Q R : σ → σ → Prop}

/-- From states that are related in one way, two computations have the same outcome. What they fail
with satisfies the predicate; where they succeed, the states are related in the other way. -/
def InStep (E : Error → Prop) (P Q : σ → σ → Prop) (m n : Attempt σ α) : Prop :=
  ∀ s t, P s t → (m.on s).1 = (n.on t).1 ∧ ThrowsOnly E (m.on s).1 ∧
    ∀ a, (m.on s).1 = .ok a → Q (m.on s).2 (n.on t).2

theorem inStep_lift {x : Except Error α} (hx : ThrowsOnly E x) :
    InStep E P P (liftM x) (liftM x) :=
  fun _ _ h => ⟨rfl, hx, fun _ _ => h⟩

theorem inStep_pure (a : α) : InStep E P P (pure a) (pure a) :=
  inStep_lift (throwsOnly_ok a)

theorem inStep_throw {e : Error} (he : E e) :
    InStep E P Q (throw e : Attempt σ α) (throw e) :=
  fun _ _ _ => ⟨rfl, throwsOnly_error he, nofun⟩

theorem inStep_throw_bind {e : Error} (he : E e) (f g : α → Attempt σ β) :
    InStep E P Q ((throw e : Attempt σ α) >>= f) ((throw e : Attempt σ α) >>= g) :=
  fun _ _ _ => ⟨rfl, throwsOnly_error he, nofun⟩

theorem InStep.mono {P' Q' : σ → σ → Prop} {m n : Attempt σ α} (h : InStep E P Q m n)
    (hbefore : ∀ s t, P' s t → P s t) (hafter : ∀ s t, Q s t → Q' s t) : InStep E P' Q' m n := by
  intro s t hst
  obtain ⟨hsame, hfails, hends⟩ := h s t (hbefore s t hst)
  exact ⟨hsame, hfails, fun a ha => hafter _ _ (hends a ha)⟩

theorem InStep.on_bind {m n : Attempt σ α} {f g : α → Attempt σ β} {s t : σ}
    (hm : InStep E P Q m n) (hst : P s t)
    (hf : ∀ a s', m.on s = (.ok a, s') → InStep E Q R (f a) (g a)) :
    ((m >>= f).on s).1 = ((n >>= g).on t).1 ∧ ThrowsOnly E ((m >>= f).on s).1 ∧
      ∀ b, ((m >>= f).on s).1 = .ok b → R ((m >>= f).on s).2 ((n >>= g).on t).2 := by
  obtain ⟨hsame, hfails, hends⟩ := hm s t hst
  rw [Attempt.on_bind, Attempt.on_bind]
  rcases hs : m.on s with ⟨x, s'⟩
  rcases ht : n.on t with ⟨y, t'⟩
  rw [hs, ht] at hsame hends
  rw [hs] at hfails
  obtain rfl : x = y := hsame
  cases x with
  | error e => exact ⟨rfl, throwsOnly_error (hfails e rfl), nofun⟩
  | ok a => exact hf a s' hs s' t' (hends a rfl)

theorem InStep.bind {m n : Attempt σ α} {f g : α → Attempt σ β} (hm : InStep E P Q m n)
    (hf : ∀ a, InStep E Q R (f a) (g a)) : InStep E P R (m >>= f) (n >>= g) :=
  fun _ _ hst => hm.on_bind hst fun a _ _ => hf a

theorem inStep_get_bind {f g : σ → Attempt σ α}
    (hf : ∀ s t, P s t → InStep E (fun s' t' => s' = s ∧ t' = t ∧ P s t) Q (f s) (g t)) :
    InStep E P Q (get >>= f) (get >>= g) :=
  fun s t hst => hf s t hst s t ⟨rfl, rfl, hst⟩

theorem inStep_mapM {I : List α → σ → σ → Prop} {f g : α → Attempt σ β} {items : List α}
    (h : ∀ a ∈ items, ∀ others, InStep E (I (a :: others)) (I others) (f a) (g a)) :
    InStep E (I items) (I []) (items.mapM f) (items.mapM g) := by
  induction items with
  | nil =>
    rw [List.mapM_nil, List.mapM_nil]
    exact inStep_pure []
  | cons a items ih =>
    rw [List.mapM_cons, List.mapM_cons]
    refine (h a (List.mem_cons_self ..) items).bind fun b => ?_
    exact (ih fun c hc => h c (List.mem_cons_of_mem _ hc)).bind fun bs => inStep_pure (b :: bs)

end Attempt

open Attempt

/-- Bits of a row that are read for one of its stored fields. -/
structure Probe where
  /-- The position of the stored field's descriptor. -/
  descriptor : Nat
  offset : Nat
  count : Nat
  deriving DecidableEq, Repr

/-- The bits that are read for slots one after the other in a row of fixed size, if the index of the
pallet array `cached` is known. Its index is read once for neighbouring slots of a pallet array. -/
def Slot.probes (descriptors : List Descriptor) : (cached : Option Nat) → List Slot → List Probe
  | _, [] => []
  | cached, slot :: slots =>
    if slot.isCommon then probes descriptors cached slots
    else match descriptors[slot.descriptor]? with
      | none => probes descriptors cached slots
      | some d =>
        match d.storage with
        | .plain _ | .immediate _ | .pallet _ =>
          ⟨slot.descriptor, d.bitOffset + slot.element * d.bitSize, d.bitSize⟩ ::
            probes descriptors cached slots
        | .palletArray _ =>
          if cached = some slot.descriptor then probes descriptors cached slots
          else ⟨slot.descriptor, d.bitOffset, d.bitSize⟩ ::
            probes descriptors (some slot.descriptor) slots
        | .common .. | .relationship => probes descriptors cached slots

namespace Mapping

/-- The bits that are read for the key of a row, where common data needs one. -/
def keyProbes (m : Mapping) (descriptors : List Descriptor) : List Probe :=
  match m.keyDescriptor? with
  | some index =>
    match descriptors[index]? with
    | some d => if m.needsKey && d.isInline then [⟨index, d.bitOffset, d.bitSize⟩] else []
    | none => []
  | none => []

/-- All bits that are read in a row of fixed size. -/
def probes (m : Mapping) (descriptors : List Descriptor) : List Probe :=
  Slot.probes descriptors none m.slots ++ m.keyProbes descriptors

end Mapping

/-- Whether an error says that bits were asked for which are beyond the end of the row. -/
def Error.isOverrun : Error → Bool
  | invalid (.bitRange ..) => true
  | _ => false

/-- The row taken as one of variable size, or as one of fixed size. -/
def RowContext.withMode (c : RowContext) (isVariable : Bool) : RowContext :=
  { c with isVariable }

namespace RowState

/-- States in which the same texts are found, whatever else they have in common. -/
structure Shares (R : RowState → RowState → Prop) : Prop where
  strings : ∀ {s t}, R s t → s.strings = t.strings
  put : ∀ {s t} strings, R s t → R { s with strings } { t with strings }

/-- States that differ in their bits only, and there as the bits that are still to be read allow. -/
structure Kin (B : List Probe → BitReader → BitReader → Prop) (palletIndex : Option (Nat × Nat))
    (probes : List Probe) (s t : RowState) : Prop where
  left : s.palletIndex = palletIndex
  right : t.palletIndex = palletIndex
  strings : s.strings = t.strings
  bits : B probes s.bits t.bits

/-- The same, where some slots and behind them some other bits are still to be read. -/
def Ahead (B : List Probe → BitReader → BitReader → Prop) (descriptors : List Descriptor)
    (others : List Probe) (slots : List Slot) (s t : RowState) : Prop :=
  ∃ palletIndex,
    Kin B palletIndex (Slot.probes descriptors (palletIndex.map Prod.fst) slots ++ others) s t

variable {B : List Probe → BitReader → BitReader → Prop}

theorem shares_strings : Shares fun s t => s.strings = t.strings where
  strings h := h
  put _ _ := rfl

theorem shares_kin (palletIndex : Option (Nat × Nat)) (probes : List Probe) :
    Shares (Kin B palletIndex probes) where
  strings h := h.strings
  put _ h := ⟨h.left, h.right, rfl, h.bits⟩

theorem shares_ahead (descriptors : List Descriptor) (others : List Probe) (slots : List Slot) :
    Shares (Ahead B descriptors others slots) where
  strings h := h.choose_spec.strings
  put _ h := ⟨h.choose, h.choose_spec.left, h.choose_spec.right, rfl, h.choose_spec.bits⟩

end RowState

open RowState (Shares Kin Ahead shares_ahead shares_strings)

theorem FieldPlan.fillElements_withMode (c : RowContext) (isVariable : Bool) (key : Option UInt32)
    (kind : FieldKind) (slots : List Slot) (elements : Elements) :
    fillElements (c.withMode isVariable) key kind slots elements =
      fillElements c key kind slots elements := by
  fun_induction fillElements c key kind slots elements with
  | case1 slot slots elements ih =>
    rw [fillElements, ih]
    rfl
  | case2 slot slots value elements ih => rw [fillElements, ih]
  | case3 slots elements hnone hsome => rw [fillElements] <;> assumption

theorem Mapping.fillFields_withMode (c : RowContext) (isVariable : Bool) (key : Option UInt32)
    (plans : List FieldPlan) (fields : List Elements) :
    fillFields (c.withMode isVariable) key plans fields = fillFields c key plans fields := by
  fun_induction fillFields c key plans fields with
  | case1 p plans elements fields ih => rw [fillFields, ih, FieldPlan.fillElements_withMode]
  | case2 plans fields hnone => rw [fillFields]; assumption

section Errors

variable {E : Error → Prop} (hE : ∀ e, e.isOverrun = false → E e)

include hE

theorem StringTable.failsOnly_resolve_of (offset : UInt32) : FailsOnly E (resolve offset) := by
  have htext (bytes : Bytes) : ThrowsOnly E (textAt bytes offset) := by
    unfold textAt
    split
    · exact throwsOnly_error (hE _ rfl)
    · cases terminated? (bytes.drop offset.toNat) with
      | some text => exact throwsOnly_ok _
      | none => exact throwsOnly_error (hE _ rfl)
  refine failsOnly_get_bind fun t => ?_
  cases t.found? offset with
  | some text => exact failsOnly_pure text
  | none =>
    exact (failsOnly_lift (htext t.bytes)).bind fun text =>
      (failsOnly_modify _).bind fun _ => failsOnly_pure text

theorem Scalar.throwsOnly_ofWord_of (word : BitVec 64) (kind : FieldKind) :
    ThrowsOnly E (ofWord word kind) := by
  cases kind with
  | text => exact throwsOnly_error (hE _ rfl)
  | _ => exact throwsOnly_ok _

theorem RowContext.throwsOnly_descriptor (c : RowContext) (index : Nat) :
    ThrowsOnly E (c.descriptor index) := by
  unfold descriptor
  cases c.descriptors[index]? with
  | some d => exact throwsOnly_ok d
  | none => exact throwsOnly_error (hE _ rfl)

theorem RowContext.throwsOnly_stringOffset_of (c : RowContext) (bit stored : Nat) :
    ThrowsOnly E (c.stringOffset bit stored) := by
  unfold stringOffset
  dsimp only
  repeat' split
  all_goals first
    | exact throwsOnly_ok _
    | exact throwsOnly_error (hE _ rfl)

theorem FieldPlan.throwsOnly_value (p : FieldPlan) (elements : Elements) :
    ThrowsOnly E (p.value elements) := by
  unfold value
  dsimp only
  split
  · exact throwsOnly_ok _
  · cases elements.filterMap id with
    | nil => exact throwsOnly_error (hE _ rfl)
    | cons first others => exact throwsOnly_ok _

theorem Mapping.throwsOnly_fieldValues (plans : List FieldPlan) (fields : List Elements) :
    ThrowsOnly E (fieldValues plans fields) := by
  fun_induction fieldValues plans fields with
  | case1 p plans elements fields ih =>
    exact (FieldPlan.throwsOnly_value hE p elements).bind fun first _ =>
      ih.bind fun others _ => throwsOnly_ok _
  | case2 => exact throwsOnly_ok _

end Errors

section Lookups

variable {E : Error → Prop} {R : RowState → RowState → Prop}
  (hE : ∀ e, e.isOverrun = false → E e) (hR : Shares R)

include hE hR

theorem Decode.inStep_string (offset : UInt32) :
    InStep E R R (Decode.string offset) (Decode.string offset) := by
  refine InStep.bind (Q := R) ?_ fun text => inStep_pure _
  intro s t h
  rw [on_focus, on_focus, ← hR.strings h]
  exact ⟨rfl, StringTable.failsOnly_resolve_of hE offset _, fun _ _ => hR.put _ h⟩

theorem RowContext.inStep_wordScalar (word : UInt32) (kind : FieldKind) :
    InStep E R R (wordScalar word kind) (wordScalar word kind) := by
  cases kind with
  | text => exact Decode.inStep_string hE hR word
  | f64 => exact inStep_pure _
  | f32 => exact inStep_lift (Scalar.throwsOnly_ofWord_of hE _ _)
  | int kind => exact inStep_lift (Scalar.throwsOnly_ofWord_of hE _ _)

variable (c : RowContext)

theorem RowContext.inStep_palletWord (chunk slot : Nat) (kind : FieldKind) :
    InStep E R R (do wordScalar (← (← c.palletTable).word chunk slot) kind)
      (do wordScalar (← (← c.palletTable).word chunk slot) kind) := by
  have htable : ThrowsOnly E c.palletTable := by
    unfold palletTable
    cases c.pallet with
    | some table => exact throwsOnly_ok table
    | none => exact throwsOnly_error (hE _ rfl)
  refine (inStep_lift htable).bind fun table => InStep.bind (Q := R) (inStep_lift ?_) fun word =>
    inStep_wordScalar hE hR word kind
  unfold PalletTable.word
  split
  · exact throwsOnly_error (hE _ rfl)
  · exact throwsOnly_ok _

theorem RowContext.inStep_commonElement (index : Nat) (kind : FieldKind) (key : Option UInt32) :
    InStep E R R (c.commonElement index kind key) (c.commonElement index kind key) := by
  refine (inStep_lift (c.throwsOnly_descriptor hE index)).bind fun d => ?_
  cases d.storage with
  | common default chunk => exact inStep_wordScalar hE hR _ kind
  | _ => exact inStep_throw (hE _ rfl)

theorem FieldPlan.inStep_fillElements (key : Option UInt32) (kind : FieldKind) (slots : List Slot)
    (elements : Elements) :
    InStep E R R (fillElements c key kind slots elements)
      (fillElements c key kind slots elements) := by
  fun_induction fillElements c key kind slots elements with
  | case1 slot slots elements ih =>
    exact (RowContext.inStep_commonElement hE hR c _ kind key).bind fun value =>
      ih.bind fun rest => inStep_pure _
  | case2 slot slots value elements ih => exact ih.bind fun rest => inStep_pure _
  | case3 => exact inStep_pure _

theorem Mapping.inStep_fillFields (key : Option UInt32) (plans : List FieldPlan)
    (fields : List Elements) :
    InStep E R R (fillFields c key plans fields) (fillFields c key plans fields) := by
  fun_induction fillFields c key plans fields with
  | case1 p plans elements fields ih =>
    exact (FieldPlan.inStep_fillElements hE hR c key p.kind _ elements).bind fun filled =>
      ih.bind fun rest => inStep_pure _
  | case2 => exact inStep_pure _

end Lookups

/-- A word of the row is the same in both ways of reading it, or fails alike. -/
def RowContext.WordsAgree (c : RowContext) (v w : Bool) (E : Error → Prop)
    (B : List Probe → BitReader → BitReader → Prop) : Prop :=
  ∀ (d : Descriptor) (index element : Nat) (signed : Bool) (palletIndex : Option (Nat × Nat))
    (probes : List Probe),
    InStep E (Kin B palletIndex (⟨index, d.bitOffset + element * d.bitSize, d.bitSize⟩ :: probes))
      (Kin B palletIndex probes) ((c.withMode v).inlineWord d element signed)
      ((c.withMode w).inlineWord d element signed)

def RowContext.TextsAgree (c : RowContext) (v w : Bool) (E : Error → Prop)
    (B : List Probe → BitReader → BitReader → Prop) : Prop :=
  ∀ (d : Descriptor) (index element : Nat) (palletIndex : Option (Nat × Nat))
    (probes : List Probe),
    InStep E (Kin B palletIndex (⟨index, d.bitOffset + element * d.bitSize, d.bitSize⟩ :: probes))
      (Kin B palletIndex probes) ((c.withMode v).inlineString d element)
      ((c.withMode w).inlineString d element)

/-- Whether an element of the field stands in the row as it is. -/
def FieldPlan.IsInline (descriptors : List Descriptor) (p : FieldPlan) : Prop :=
  ∃ slot ∈ p.source.slotList, ∃ d, descriptors[slot.descriptor]? = some d ∧ d.isInline = true

/-- A key that has been decoded as a field is not read again. -/
theorem Mapping.bodyKey_of_decoded {m : Mapping} {body : List Elements} {key : UInt32}
    (h : m.decodedKey body = some key) (c : RowContext) : m.bodyKey c body = return some key := by
  unfold decodedKey at h
  unfold bodyKey
  dsimp only
  rw [h]

section Reads

variable {c : RowContext} {v w : Bool} {E : Error → Prop}
  {B : List Probe → BitReader → BitReader → Prop} {others : List Probe} {slots : List Slot}
  {kind : FieldKind} {external : Option UInt32}
  (hE : ∀ e, e.isOverrun = false → E e) (hwords : c.WordsAgree v w E B)

namespace RowContext

theorem inStep_ahead {α : Type} {m n : Decode α} {p : Probe} {slot : Slot}
    (hslot : ∀ cached, Slot.probes c.descriptors cached (slot :: slots) =
      p :: Slot.probes c.descriptors cached slots)
    (h : ∀ palletIndex probes, InStep E (Kin B palletIndex (p :: probes))
      (Kin B palletIndex probes) m n) :
    InStep E (Ahead B c.descriptors others (slot :: slots)) (Ahead B c.descriptors others slots)
      m n := by
  rintro s t ⟨palletIndex, hkin⟩
  rw [hslot] at hkin
  obtain ⟨hsame, hfails, hends⟩ := h _ _ s t hkin
  exact ⟨hsame, hfails, fun a ha => ⟨_, hends a ha⟩⟩

include hwords

theorem inStep_readIndex (index : Nat) (d : Descriptor) (palletIndex : Option (Nat × Nat)) :
    InStep E
      (Kin B palletIndex (⟨index, d.bitOffset, d.bitSize⟩ ::
        (Slot.probes c.descriptors (some index) slots ++ others)))
      (Ahead B c.descriptors others slots)
      (palletArrayIndex.readIndex (c.withMode v) index d)
      (palletArrayIndex.readIndex (c.withMode w) index d) := by
  have hword := hwords d index 0 false palletIndex
    (Slot.probes c.descriptors (some index) slots ++ others)
  rw [Nat.zero_mul, Nat.add_zero] at hword
  refine hword.bind fun word => ?_
  intro s t h
  exact ⟨rfl, throwsOnly_ok _, fun _ _ => ⟨some (index, word.toNat), rfl, rfl, h.strings, h.bits⟩⟩

theorem inStep_palletArrayIndex {slot : Slot} {d : Descriptor} {chunk : Chunk}
    (hd : c.descriptors[slot.descriptor]? = some d) (hstorage : d.storage = .palletArray chunk)
    (hstored : slot.isCommon = false) :
    InStep E (Ahead B c.descriptors others (slot :: slots)) (Ahead B c.descriptors others slots)
      ((c.withMode v).palletArrayIndex slot.descriptor d)
      ((c.withMode w).palletArrayIndex slot.descriptor d) := by
  have hfresh (cached : Option Nat) (hcached : cached ≠ some slot.descriptor) :
      Slot.probes c.descriptors cached (slot :: slots) =
        ⟨slot.descriptor, d.bitOffset, d.bitSize⟩ ::
          Slot.probes c.descriptors (some slot.descriptor) slots := by
    simp [Slot.probes, hstored, hd, hstorage, hcached]
  refine inStep_get_bind fun s t ⟨palletIndex, hkin⟩ => ?_
  rw [hkin.left, hkin.right]
  cases palletIndex with
  | none =>
    rw [Option.map_none, hfresh none (Option.some_ne_none _).symm] at hkin
    refine (inStep_readIndex hwords slot.descriptor d none).mono ?_ fun _ _ => id
    rintro _ _ ⟨rfl, rfl, _⟩
    exact hkin
  | some entry =>
    obtain ⟨cached, stored⟩ := entry
    dsimp only
    split
    case isTrue hsame =>
      subst hsame
      refine (inStep_pure stored).mono (fun _ _ => id) ?_
      rintro _ _ ⟨rfl, rfl, _⟩
      refine ⟨some (slot.descriptor, stored), ?_⟩
      simpa [Slot.probes, hstored, hd, hstorage] using hkin
    case isFalse hother =>
      rw [hfresh _ (by simpa using hother)] at hkin
      refine (inStep_readIndex hwords slot.descriptor d (some (cached, stored))).mono ?_
        fun _ _ => id
      rintro _ _ ⟨rfl, rfl, _⟩
      exact hkin

omit hwords

include hE

theorem inStep_descriptor_bind {α : Type} {index : Nat} {f g : Descriptor → Decode α}
    {P Q : RowState → RowState → Prop}
    (hf : ∀ d, c.descriptors[index]? = some d → InStep E P Q (f d) (g d)) :
    InStep E P Q (liftM ((c.withMode v).descriptor index) >>= f)
      (liftM ((c.withMode w).descriptor index) >>= g) := by
  unfold descriptor withMode
  dsimp only
  cases hd : c.descriptors[index]? with
  | none => exact inStep_throw_bind (hE _ rfl) f g
  | some d => exact hf d hd

include hwords

theorem inStep_element {slot : Slot} (hstored : slot.isCommon = false)
    (htexts : ∀ d, kind = .text → c.descriptors[slot.descriptor]? = some d →
      d.isInline = true → c.TextsAgree v w E B) :
    InStep E (Ahead B c.descriptors others (slot :: slots)) (Ahead B c.descriptors others slots)
      ((c.withMode v).element slot.descriptor slot.element kind)
      ((c.withMode w).element slot.descriptor slot.element kind) := by
  refine inStep_descriptor_bind hE fun d hd => ?_
  have hshares := shares_ahead (B := B) c.descriptors others slots
  -- A slot of a stored field takes its own probe off the front of what is ahead.
  have hword (signed : Bool)
      (hslot : ∀ cached, Slot.probes c.descriptors cached (slot :: slots) =
        ⟨slot.descriptor, d.bitOffset + slot.element * d.bitSize, d.bitSize⟩ ::
          Slot.probes c.descriptors cached slots) :
      InStep E (Ahead B c.descriptors others (slot :: slots))
        (Ahead B c.descriptors others slots) ((c.withMode v).inlineWord d slot.element signed)
        ((c.withMode w).inlineWord d slot.element signed) :=
    inStep_ahead hslot fun palletIndex probes => hwords d _ _ signed palletIndex probes
  have hinline (signed : Bool) (hinline : d.isInline = true)
      (hslot : ∀ cached, Slot.probes c.descriptors cached (slot :: slots) =
        ⟨slot.descriptor, d.bitOffset + slot.element * d.bitSize, d.bitSize⟩ ::
          Slot.probes c.descriptors cached slots) :
      InStep E (Ahead B c.descriptors others (slot :: slots)) (Ahead B c.descriptors others slots)
        (if kind = .text then (c.withMode v).inlineString d slot.element
          else do Scalar.ofWord (← (c.withMode v).inlineWord d slot.element signed) kind)
        (if kind = .text then (c.withMode w).inlineString d slot.element
          else do Scalar.ofWord (← (c.withMode w).inlineWord d slot.element signed) kind) := by
    split
    case isTrue htext =>
      exact inStep_ahead hslot fun palletIndex probes =>
        htexts d htext hd hinline d _ _ palletIndex probes
    case isFalse =>
      exact (hword signed hslot).bind fun word =>
        inStep_lift (Scalar.throwsOnly_ofWord_of hE word kind)
  cases hstorage : d.storage with
  | plain signed =>
    refine hinline signed ?_ fun cached => ?_
    · rw [Descriptor.isInline, hstorage]
    · simp [Slot.probes, hstored, hd, hstorage]
  | immediate signed =>
    refine hinline signed ?_ fun cached => ?_
    · rw [Descriptor.isInline, hstorage]
    · simp [Slot.probes, hstored, hd, hstorage]
  | pallet chunk =>
    refine (hword false fun cached => ?_).bind fun stored =>
      inStep_palletWord hE hshares c chunk.start stored.toNat kind
    simp [Slot.probes, hstored, hd, hstorage]
  | palletArray chunk =>
    refine (inStep_palletArrayIndex hwords hd hstorage hstored).bind fun stored => ?_
    dsimp only
    split
    · exact inStep_throw_bind (hE _ rfl) _ _
    · exact inStep_palletWord hE hshares c chunk.start _ kind
  | relationship =>
    refine (inStep_wordScalar hE hshares _ kind).mono ?_ fun _ _ => id
    rintro s t ⟨palletIndex, hkin⟩
    refine ⟨palletIndex, ?_⟩
    simpa [Slot.probes, hstored, hd, hstorage] using hkin
  | common default chunk => exact inStep_throw (hE _ rfl)

end RowContext

include hE hwords

theorem FieldPlan.inStep_bodyElements {p : FieldPlan} {left : List Slot}
    (htexts : p.kind = .text → p.IsInline c.descriptors → c.TextsAgree v w E B) :
    InStep E (Ahead B c.descriptors others (p.source.slotList ++ left))
      (Ahead B c.descriptors others left)
      (p.bodyElements (c.withMode v) external) (p.bodyElements (c.withMode w) external) := by
  obtain ⟨kind, isArray, source⟩ := p
  cases source with
  | indexTable =>
    cases external with
    | none => exact inStep_throw (hE _ rfl)
    | some key =>
      exact (inStep_lift (Scalar.throwsOnly_ofWord_of hE _ _)).bind fun _ => inStep_pure _
  | slots slots =>
    refine inStep_mapM (I := fun slots => Ahead B c.descriptors others (slots ++ left))
      fun slot hslot others => ?_
    rw [List.cons_append]
    split
    case isTrue hcommon =>
      refine (inStep_pure none).mono ?_ fun _ _ => id
      rintro s t ⟨palletIndex, hkin⟩
      refine ⟨palletIndex, ?_⟩
      simpa [Slot.probes, hcommon] using hkin
    case isFalse hstored =>
      refine (RowContext.inStep_element hE hwords (by simpa using hstored) ?_).bind fun value =>
        inStep_pure _
      intro d htext hd hinline
      exact htexts htext ⟨slot, hslot, d, hd, hinline⟩

theorem Mapping.inStep_body {m : Mapping} {left : List Slot}
    (htexts : ∀ p ∈ m.fields, p.kind = .text → p.IsInline c.descriptors → c.TextsAgree v w E B) :
    InStep E (Ahead B c.descriptors others (m.slots ++ left)) (Ahead B c.descriptors others left)
      (m.fields.mapM (FieldPlan.bodyElements (c.withMode v) external))
      (m.fields.mapM (FieldPlan.bodyElements (c.withMode w) external)) := by
  refine inStep_mapM (I := fun plans : List FieldPlan => Ahead B c.descriptors others
    ((plans.flatMap fun p => p.source.slotList) ++ left)) fun p hp plans => ?_
  rw [List.flatMap_cons, List.append_assoc]
  exact FieldPlan.inStep_bodyElements hE hwords (htexts p hp)

omit hwords

/-- What follows once the stored fields have been read, if the key is found alike. -/
theorem Mapping.inStep_finish {m : Mapping} {body : List Elements}
    {P : RowState → RowState → Prop} (hP : ∀ s t, P s t → s.strings = t.strings)
    (hkey : m.needsKey = true → external = none →
      InStep E P (fun s t => s.strings = t.strings) (m.bodyKey (c.withMode v) body)
        (m.bodyKey (c.withMode w) body)) :
    InStep E P (fun s t => s.strings = t.strings)
      (do
        if m.needsKey then
          let key ← match external with
            | some key => pure (some key)
            | none => m.bodyKey (c.withMode v) body
          fieldValues m.fields (← fillFields (c.withMode v) key m.fields body)
        else
          fieldValues m.fields body)
      (do
        if m.needsKey then
          let key ← match external with
            | some key => pure (some key)
            | none => m.bodyKey (c.withMode w) body
          fieldValues m.fields (← fillFields (c.withMode w) key m.fields body)
        else
          fieldValues m.fields body) := by
  have hvalues (fields : List Elements) :
      InStep E (fun s t : RowState => s.strings = t.strings) (fun s t => s.strings = t.strings)
        (liftM (fieldValues m.fields fields)) (liftM (fieldValues m.fields fields)) :=
    inStep_lift (Mapping.throwsOnly_fieldValues hE m.fields fields)
  split
  case isTrue hneeded =>
    have hfilled (key : Option UInt32) :
        InStep E (fun s t => s.strings = t.strings) (fun s t => s.strings = t.strings)
          (do fieldValues m.fields (← fillFields (c.withMode v) key m.fields body))
          (do fieldValues m.fields (← fillFields (c.withMode w) key m.fields body)) := by
      rw [fillFields_withMode, fillFields_withMode]
      exact (inStep_fillFields hE shares_strings c key m.fields body).bind hvalues
    cases external with
    | some key => exact (hfilled (some key)).mono hP fun _ _ => id
    | none => exact (hkey hneeded rfl).bind hfilled
  case isFalse => exact (hvalues body).mono hP fun _ _ => id

include hwords

theorem Mapping.values_inStep {m : Mapping} {left : List Slot} {s t : RowState}
    (htexts : ∀ p ∈ m.fields, p.kind = .text → p.IsInline c.descriptors → c.TextsAgree v w E B)
    (hkey : m.needsKey = true → external = none → ∀ body s',
      (m.fields.mapM (FieldPlan.bodyElements (c.withMode v) external)).on s = (.ok body, s') →
        InStep E (Ahead B c.descriptors others left) (fun s t => s.strings = t.strings)
          (m.bodyKey (c.withMode v) body) (m.bodyKey (c.withMode w) body))
    (hst : Ahead B c.descriptors others (m.slots ++ left) s t) :
    ((m.values (c.withMode v) external).on s).1 = ((m.values (c.withMode w) external).on t).1 ∧
      ThrowsOnly E ((m.values (c.withMode v) external).on s).1 := by
  have hbody : InStep E (Ahead B c.descriptors others (m.slots ++ left))
      (Ahead B c.descriptors others left)
      (m.fields.mapM (FieldPlan.bodyElements (c.withMode v) external))
      (m.fields.mapM (FieldPlan.bodyElements (c.withMode w) external)) :=
    Mapping.inStep_body hE hwords htexts
  have hrun := hbody.on_bind (R := fun s t => s.strings = t.strings) hst fun body s' hs' =>
    Mapping.inStep_finish hE (fun s t h => h.choose_spec.strings) fun hneeded hexternal =>
      hkey hneeded hexternal body s' hs'
  exact ⟨hrun.1, hrun.2.1⟩

end Reads

end ClientTable
