import ClientTable.Proofs.Gathering
import ClientTable.Proofs.MachineTables

namespace ClientTable

/-- The numbers of a descriptor are 32-bit words. -/
structure Descriptor.IsBounded (d : Descriptor) : Prop where
  bitOffset : d.bitOffset < wordLimit
  bitSize : d.bitSize < wordLimit
  cardinality : d.cardinality < wordLimit
  chunk : d.chunk.stop < wordLimit

/-- The slots that feed the fields have numbers that are 32-bit words. -/
def Mapping.IsBounded (m : Mapping) : Prop :=
  ∀ p ∈ m.fields, ∀ slot ∈ p.source.slotList, slot.element < wordLimit

/-- The cursor is in a row that starts at `offset` and ends below 64 bits. -/
structure BitReader.IsSound (offset : Nat) (r : BitReader) : Prop where
  cursor : r.cursor ≤ 8 * r.data.length
  length : r.data.length < wordLimit
  stop : offset + r.data.length < positionLimit

theorem length_of_terminated? {bytes text : Bytes} (h : terminated? bytes = some text) :
    text.length < bytes.length := by
  rw [Machine.terminated?_eq_map] at h
  obtain ⟨stop, hstop, rfl⟩ := Option.map_eq_some_iff.mp h
  have hlt : stop < bytes.length := (List.findIdx?_eq_some_iff_getElem.mp hstop).1
  rw [List.length_take]
  omega

theorem BitReader.inside_of_readAt {r : BitReader} {offset count value : Nat}
    (h : r.readAt offset count = .ok value) : offset + count ≤ 8 * r.data.length := by
  unfold readAt at h
  split at h
  · cases h
  · split at h
    · cases h
    · rename_i hinside
      exact Nat.not_lt.mp hinside

theorem BitReader.inside_of_readWordAt {r : BitReader} {offset count : Nat} {signed : Bool}
    {word : BitVec 64} (h : r.readWordAt offset count signed = .ok word) :
    offset + count ≤ 8 * r.data.length := by
  obtain ⟨_, hvalue, _⟩ := Attempt.bind_eq_ok.mp h
  exact inside_of_readAt hvalue

namespace Machine

open Guarded

theorem mirrors_set {σ : Type} {I : σ → Prop} {s : σ} (h : I s) :
    Mirrors (Steady I) (set s) (set s) :=
  fun _ _ _ => ⟨s, rfl, rfl, h⟩

section

variable {offset : Nat} {r : BitReader}

theorem limit_of_isSound (hr : r.IsSound offset) :
    8 * r.data.length + 64 < positionLimit := by
  have hlength := hr.length
  rw [wordLimit] at hlength
  rw [positionLimit]
  omega

theorem mirrors_readWord (count : Nat) (signed : Bool) :
    Mirrors (Steady (BitReader.IsSound offset)) (readWord count signed)
      (BitRead.word count signed) := by
  refine mirrors_get_bind ?_
  rintro r _ ⟨rfl, hr⟩
  have hlimit := limit_of_isSound hr
  have hcursor := hr.cursor
  rw [readWordAt_eq count signed (fun _ => by omega) (by omega)]
  refine mirrors_lift_bind fun value hvalue => ?_
  have hinside := BitReader.inside_of_readWordAt hvalue
  rw [trap_bind (Checked.add_of_lt (by omega))]
  exact (mirrors_set ⟨hinside, hr.length, hr.stop⟩).bind fun _ => mirrors_pure value

theorem mirrors_readText :
    Mirrors (Steady (BitReader.IsSound offset)) readText BitRead.text := by
  refine mirrors_get_bind ?_
  rintro r _ ⟨rfl, hr⟩
  have hlimit := limit_of_isSound hr
  have hcursor := hr.cursor
  dsimp only
  split
  case isTrue => exact mirrors_throw_bind _ _ _
  case isFalse =>
      rw [checked_bind (terminated?_eq _)]
      cases htext : ClientTable.terminated? (r.data.drop (r.cursor / 8)) with
      | none => exact mirrors_throw _
      | some bytes =>
          have hlength := length_of_terminated? htext
          rw [List.length_drop] at hlength
          dsimp only
          rw [trap_bind (Checked.add_of_lt (by omega)), trap_bind (Checked.mul_of_lt (by omega)),
            trap_bind (Checked.add_of_lt (by omega)), Nat.mul_comm _ 8]
          exact (mirrors_set ⟨by dsimp only; omega, hr.length, hr.stop⟩).bind fun _ =>
            mirrors_pure _

end

/-- The state is the same, and its cursor is in the row. -/
abbrev InRow (c : RowContext) : RowState → RowState → Prop :=
  Steady fun s => s.bits.IsSound c.offset

section

variable {c : RowContext} {d : Descriptor} {element : Nat}

theorem mirrors_bits {α : Type} {read : Guarded BitReader α} {read' : BitRead α}
    (h : Mirrors (Steady (BitReader.IsSound c.offset)) read read') :
    Mirrors (InRow c) (bits read) (Decode.bits read') := by
  refine h.focus ?_ ?_
  · rintro s _ ⟨rfl, hs⟩
    exact ⟨rfl, hs⟩
  · rintro s _ r _ ⟨rfl, _⟩ ⟨rfl, hr⟩
    exact ⟨rfl, hr⟩

theorem mirrors_string (offset : UInt32) :
    Mirrors (InRow c) (string offset) (Decode.string offset) := by
  refine Mirrors.bind (Mirrors.focus (mirrors_resolve offset) ?_ ?_) fun _ => mirrors_pure _
  · rintro s _ ⟨rfl, _⟩
    rfl
  · rintro s _ strings _ ⟨rfl, hs⟩ rfl
    exact ⟨rfl, hs⟩

theorem elementBit_lt (hd : d.IsBounded) (helement : element < wordLimit) {count : Nat}
    (hcount : count ≤ 64) : d.bitOffset + element * d.bitSize + count < positionLimit := by
  have hmul : element * d.bitSize ≤ (wordLimit - 1) * (wordLimit - 1) :=
    Nat.mul_le_mul (Nat.le_pred_of_lt helement) (Nat.le_pred_of_lt hd.bitSize)
  have hoffset := hd.bitOffset
  rw [wordLimit] at hmul hoffset
  rw [positionLimit]
  omega

theorem elementBit_eq (hd : d.IsBounded) (helement : element < wordLimit) :
    elementBit d element = pure (d.bitOffset + element * d.bitSize) := by
  have hlimit := elementBit_lt hd helement (Nat.zero_le 64)
  unfold elementBit
  rw [Checked.trap_bind (Checked.mul_of_lt (by omega)), Checked.add_of_lt (by omega)]
  rfl

theorem mirrors_inlineWord (hd : d.IsBounded) (helement : element < wordLimit) (signed : Bool) :
    Mirrors (InRow c) (inlineWord c d element signed) (c.inlineWord d element signed) := by
  unfold inlineWord RowContext.inlineWord
  split
  · exact mirrors_bits (mirrors_readWord d.bitSize signed)
  · rw [checked_bind (elementBit_eq hd helement)]
    refine mirrors_get_bind ?_
    rintro s _ ⟨rfl, hs⟩
    have hlimit := limit_of_isSound hs
    exact mirrors_checked (readWordAt_eq _ signed (elementBit_lt hd helement) (by omega))

theorem stringOffset_eq {bit : Nat} (hbit : c.offset + bit / 8 < positionLimit) (stored : Nat) :
    stringOffset c bit stored = liftM (c.stringOffset bit stored) := by
  unfold stringOffset RowContext.stringOffset
  split
  · rw [Checked.trap_bind (Checked.add_of_lt hbit)]
    dsimp only
    split
    · rfl
    · split
      · rfl
      · rw [Checked.trap_bind (Checked.sub_of_le (by omega))]
        split <;> rfl
  · rfl

theorem mirrors_inlineString (hd : d.IsBounded) (helement : element < wordLimit) :
    Mirrors (InRow c) (inlineString c d element) (c.inlineString d element) := by
  unfold inlineString RowContext.inlineString
  split
  · exact (mirrors_bits mirrors_readText).bind fun _ => mirrors_pure _
  · rw [checked_bind (elementBit_eq hd helement)]
    refine mirrors_get_bind ?_
    rintro s _ ⟨rfl, hs⟩
    have hlimit := limit_of_isSound hs
    rw [readAt_eq _ (elementBit_lt hd helement) (by omega)]
    refine mirrors_lift_bind fun stored hstored => ?_
    have hinside := BitReader.inside_of_readAt hstored
    have hstop := hs.stop
    exact (mirrors_checked (stringOffset_eq (by omega) stored)).bind fun offset =>
      mirrors_string offset

theorem mirrors_wordScalar (word : UInt32) (kind : FieldKind) :
    Mirrors (InRow c) (wordScalar word kind) (RowContext.wordScalar word kind) := by
  cases kind with
  | text => exact mirrors_string word
  | _ => exact mirrors_ofAttempt fun s hs => hs

theorem mirrors_readPalletIndex (hd : d.IsBounded) (index : Nat) :
    Mirrors (InRow c) (readPalletIndex c index d)
      (RowContext.palletArrayIndex.readIndex c index d) := by
  refine (mirrors_inlineWord hd (by decide) false).bind fun word => ?_
  refine (mirrors_modify ?_).bind fun _ => mirrors_pure _
  rintro s _ ⟨rfl, hs⟩
  exact ⟨rfl, hs⟩

theorem mirrors_palletArrayIndex (hd : d.IsBounded) (index : Nat) :
    Mirrors (InRow c) (palletArrayIndex c index d) (c.palletArrayIndex index d) := by
  refine mirrors_get_bind ?_
  rintro s _ ⟨rfl, _⟩
  cases s.palletIndex with
  | none => exact mirrors_readPalletIndex hd index
  | some last =>
      dsimp only
      split
      · exact mirrors_pure _
      · exact mirrors_readPalletIndex hd index

theorem mirrors_descriptor_bind {α : Type} {index : Nat} {f : Descriptor → Guarded RowState α}
    {n : Descriptor → Decode α} (hc : ∀ d ∈ c.descriptors, d.IsBounded)
    (hf : ∀ d : Descriptor, d.IsBounded → Mirrors (InRow c) (f d) (n d)) :
    Mirrors (InRow c) (liftM (c.descriptor index) >>= f) (liftM (c.descriptor index) >>= n) := by
  refine mirrors_lift_bind fun d hd => hf d ?_
  unfold RowContext.descriptor at hd
  split at hd
  · rename_i found hfound
    cases hd
    exact hc d (List.mem_of_getElem? hfound)
  · cases hd

theorem mirrors_palletWord {chunk : Chunk} (hchunk : chunk.stop < wordLimit) (index : Nat)
    (kind : FieldKind) :
    Mirrors (InRow c)
      (do wordScalar (← palletWord (← c.palletTable) chunk.start index) kind)
      (do RowContext.wordScalar (← (← c.palletTable).word chunk.start index) kind) := by
  have hstart : chunk.start + 4 < positionLimit := by
    have hle : chunk.start ≤ chunk.stop := Nat.le_add_right ..
    rw [wordLimit] at hchunk
    rw [positionLimit]
    omega
  exact (mirrors_lift _).bind fun table =>
    (mirrors_checked (palletWord_eq table hstart index)).bind fun word =>
      mirrors_wordScalar word kind

theorem mirrors_inlineElement (hd : d.IsBounded) (helement : element < wordLimit) (signed : Bool)
    (kind : FieldKind) :
    Mirrors (InRow c)
      (if kind = .text then inlineString c d element
        else do Scalar.ofWord (← inlineWord c d element signed) kind)
      (if kind = .text then c.inlineString d element
        else do Scalar.ofWord (← c.inlineWord d element signed) kind) := by
  split
  · exact mirrors_inlineString hd helement
  · exact (mirrors_inlineWord hd helement signed).bind fun _ => mirrors_lift _

theorem mirrors_element (hc : ∀ d ∈ c.descriptors, d.IsBounded) (index : Nat)
    (helement : element < wordLimit) (kind : FieldKind) :
    Mirrors (InRow c) (Machine.element c index element kind) (c.element index element kind) := by
  refine mirrors_descriptor_bind hc fun d hd => ?_
  have hchunk := hd.chunk
  unfold Descriptor.chunk at hchunk
  cases hstorage : d.storage with
  | plain signed => exact mirrors_inlineElement hd helement signed kind
  | immediate signed => exact mirrors_inlineElement hd helement signed kind
  | common value chunk => exact mirrors_throw _
  | pallet chunk =>
      rw [hstorage] at hchunk
      exact (mirrors_inlineWord hd helement false).bind fun word =>
        mirrors_palletWord hchunk word.toNat kind
  | palletArray chunk =>
      rw [hstorage] at hchunk
      refine (mirrors_palletArrayIndex hd index).bind fun stored => ?_
      dsimp only
      split
      · exact mirrors_throw_bind _ _ _
      · exact mirrors_palletWord hchunk _ kind
  | relationship => exact mirrors_wordScalar _ kind

theorem mirrors_commonElement (hc : ∀ d ∈ c.descriptors, d.IsBounded) (index : Nat)
    (kind : FieldKind) (key : Option UInt32) :
    Mirrors (InRow c) (commonElement c index kind key) (c.commonElement index kind key) := by
  refine mirrors_descriptor_bind hc fun d _ => ?_
  cases d.storage with
  | common value chunk => exact mirrors_wordScalar _ kind
  | _ => exact mirrors_throw _

theorem mirrors_inlineKey (hc : ∀ d ∈ c.descriptors, d.IsBounded) (index : Nat) :
    Mirrors (InRow c) (inlineKey c index) (c.inlineKey index) := by
  refine mirrors_descriptor_bind hc fun d hd => ?_
  cases d.storage with
  | plain => exact (mirrors_inlineWord hd (by decide) false).bind fun _ => mirrors_pure _
  | immediate => exact (mirrors_inlineWord hd (by decide) false).bind fun _ => mirrors_pure _
  | _ => exact mirrors_throw _

end

section

variable {c : RowContext} {m : Mapping} (hc : ∀ d ∈ c.descriptors, d.IsBounded)

include hc

theorem mirrors_bodyElements (externalKey : Option UInt32) {p : FieldPlan}
    (hp : ∀ slot ∈ p.source.slotList, slot.element < wordLimit) :
    Mirrors (InRow c) (bodyElements c externalKey p) (FieldPlan.bodyElements c externalKey p) := by
  unfold bodyElements FieldPlan.bodyElements
  cases hsource : p.source with
  | indexTable =>
      cases externalKey with
      | none => exact mirrors_throw _
      | some key => exact (mirrors_lift _).bind fun _ => mirrors_pure _
  | slots slots =>
      rw [hsource] at hp
      refine mirrors_mapM fun slot hslot => ?_
      split
      · exact mirrors_pure none
      · exact (mirrors_element hc slot.descriptor (hp slot hslot) p.kind).bind fun _ =>
          mirrors_pure _

theorem mirrors_fillElements (key : Option UInt32) (kind : FieldKind) (slots : List Slot)
    (elements : Elements) :
    Mirrors (InRow c) (fillElements c key kind slots elements)
      (FieldPlan.fillElements c key kind slots elements) := by
  induction slots generalizing elements with
  | nil => exact mirrors_pure _
  | cons slot slots ih =>
      cases elements with
      | nil => exact mirrors_pure _
      | cons first elements =>
          cases first with
          | none =>
              exact (mirrors_commonElement hc slot.descriptor kind key).bind fun _ =>
                (ih elements).bind fun _ => mirrors_pure _
          | some value => exact (ih elements).bind fun _ => mirrors_pure _

theorem mirrors_bodyKey (m : Mapping) (fields : List Elements) :
    Mirrors (InRow c) (bodyKey m c fields) (m.bodyKey c fields) := by
  unfold bodyKey Mapping.bodyKey
  dsimp only
  generalize (List.head? _).join.bind Scalar.toWord? = decoded
  cases decoded with
  | some key => exact mirrors_pure _
  | none =>
      cases m.keyDescriptor? with
      | none => exact mirrors_pure _
      | some descriptor =>
          dsimp only
          split
          · exact mirrors_pure _
          · exact (mirrors_inlineKey hc _).bind fun _ => mirrors_pure _

theorem mirrors_fillFields (key : Option UInt32) (plans : List FieldPlan)
    (fields : List Elements) :
    Mirrors (InRow c) (fillFields c key plans fields) (Mapping.fillFields c key plans fields) := by
  induction plans generalizing fields with
  | nil => exact mirrors_pure _
  | cons p plans ih =>
      cases fields with
      | nil => exact mirrors_pure _
      | cons elements fields =>
          exact (mirrors_fillElements hc key p.kind p.source.slotList elements).bind fun _ =>
            (ih fields).bind fun _ => mirrors_pure _

/-- All of a row: decoding it on a machine gives its values and does not trap. -/
theorem mirrors_values (hm : m.IsBounded) (externalKey : Option UInt32) :
    Mirrors (InRow c) (values m c externalKey) (m.values c externalKey) := by
  refine (mirrors_mapM fun p hp => mirrors_bodyElements hc externalKey (hm p hp)).bind
    fun body => ?_
  have hfill (key : Option UInt32) :=
    (mirrors_fillFields hc key m.fields body).bind fun fields =>
      mirrors_lift (Mapping.fieldValues m.fields fields)
  split
  · cases externalKey with
    | some key => exact (mirrors_pure _).bind hfill
    | none => exact (mirrors_bodyKey hc m body).bind hfill
  · exact mirrors_lift _

end

end Machine

end ClientTable
