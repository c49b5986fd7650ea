import ClientTable.Proofs.RowReads

namespace ClientTable

open Attempt
open RowState (Kin Ahead)

/-- Every field starts where the ones before it end, the first at bit 0. -/
def Descriptor.Contiguous (descriptors : List Descriptor) : Prop :=
  ∀ (i : Nat) d, descriptors[i]? = some d →
    d.bitOffset = total ((descriptors.take i).map recordBits)

/-- From the cursor on, the bits that are read follow one another. -/
def Probe.Chained : (cursor : Nat) → List Probe → Prop
  | _, [] => True
  | cursor, p :: probes => p.offset = cursor ∧ Chained (cursor + p.count) probes

/-- Two readers of one row. The cursor of the second stands where the bits are that come next. -/
def BitReader.Abreast (probes : List Probe) (r q : BitReader) : Prop :=
  r.data = q.data ∧ Probe.Chained q.cursor probes

theorem RowContext.wordsAgree_abreast (c : RowContext) :
    c.WordsAgree false true (fun _ => True) BitReader.Abreast := by
  rintro d index element signed palletIndex probes s t ⟨hleft, hright, hstrings, hdata, hcursor,
    hchained⟩
  have hfixed : ((c.withMode false).inlineWord d element signed).on s =
      (s.bits.readWordAt (d.bitOffset + element * d.bitSize) d.bitSize signed, s) := rfl
  have hvariable : ((c.withMode true).inlineWord d element signed).on t =
      (((BitRead.word d.bitSize signed).on t.bits).1,
        { t with bits := ((BitRead.word d.bitSize signed).on t.bits).2 }) := rfl
  have hread : t.bits.readWordAt t.bits.cursor d.bitSize signed =
      s.bits.readWordAt (d.bitOffset + element * d.bitSize) d.bitSize signed := by
    rw [← hcursor]
    unfold BitReader.readWordAt BitReader.readAt BitReader.size
    rw [hdata]
  rw [hfixed, hvariable, BitRead.on_word, hread]
  cases s.bits.readWordAt (d.bitOffset + element * d.bitSize) d.bitSize signed with
  | error e => exact ⟨rfl, fun _ _ => trivial, nofun⟩
  | ok word =>
    exact ⟨rfl, fun _ _ => trivial, fun _ _ => ⟨hleft, hright, hstrings, hdata, hchained⟩⟩

namespace Slot

variable {descriptors : List Descriptor}

theorem probes_append_of_silent {cached : Option Nat} {slots behind : List Slot}
    (h : ∀ slot ∈ slots, ∀ others, probes descriptors cached (slot :: others) =
      probes descriptors cached others) :
    probes descriptors cached (slots ++ behind) = probes descriptors cached behind := by
  induction slots with
  | nil => rfl
  | cons slot slots ih =>
    rw [List.cons_append, h slot (List.mem_cons_self ..),
      ih fun other hother => h other (List.mem_cons_of_mem _ hother)]

theorem chained_elements {d : Descriptor} {index : Nat} {cached : Option Nat} {behind : List Slot}
    (hslot : ∀ element others, probes descriptors cached (⟨index, element, false⟩ :: others) =
      ⟨index, d.bitOffset + element * d.bitSize, d.bitSize⟩ :: probes descriptors cached others)
    (first count : Nat)
    (hbehind : Probe.Chained (d.bitOffset + (first + count) * d.bitSize)
      (probes descriptors cached behind)) :
    Probe.Chained (d.bitOffset + first * d.bitSize)
      (probes descriptors cached ((SlotRun.mk index first count false).slots ++ behind)) := by
  induction count generalizing first with
  | zero => simpa [SlotRun.slots, SlotRun.front] using hbehind
  | succ count ih =>
    have hsplit : (SlotRun.mk index first (count + 1) false).slots =
        ⟨index, first, false⟩ :: (SlotRun.mk index (first + 1) count false).slots := by
      simp [SlotRun.slots, SlotRun.front, List.range'_succ]
    rw [hsplit, List.cons_append, hslot]
    refine ⟨rfl, ?_⟩
    rw [Nat.add_assoc, ← Nat.succ_mul]
    apply ih
    rwa [Nat.succ_add_eq_add_succ]

/-- The elements of a pallet array, whose index is read with the first of them. -/
theorem chained_array {d : Descriptor} {index : Nat} {chunk : Chunk} {cached : Option Nat}
    {behind : List Slot} (hd : descriptors[index]? = some d)
    (hstorage : d.storage = .palletArray chunk) (hfresh : cached ≠ some index) (count : Nat)
    (hbehind : Probe.Chained (d.bitOffset + d.bitSize)
      (probes descriptors (some index) behind)) :
    Probe.Chained d.bitOffset
      (probes descriptors cached ((SlotRun.mk index 0 (count + 1) false).slots ++ behind)) := by
  have hsplit : (SlotRun.mk index 0 (count + 1) false).slots =
      ⟨index, 0, false⟩ :: (SlotRun.mk index 1 count false).slots := by
    simp [SlotRun.slots, SlotRun.front, List.range'_succ]
  have hfirst : ∀ others, probes descriptors cached (⟨index, 0, false⟩ :: others) =
      ⟨index, d.bitOffset, d.bitSize⟩ :: probes descriptors (some index) others := by
    intro others
    simp [probes, hd, hstorage, hfresh]
  have hothers :
      probes descriptors (some index) ((SlotRun.mk index 1 count false).slots ++ behind) =
        probes descriptors (some index) behind := by
    refine probes_append_of_silent fun slot hslot others => ?_
    obtain ⟨element, _, rfl⟩ := List.mem_map.mp hslot
    simp [probes, hd, hstorage]
  rw [hsplit, List.cons_append, hfirst, hothers]
  exact ⟨rfl, hbehind⟩

section Run

variable {d : Descriptor} {index : Nat} {cached : Option Nat} {behind : List Slot}

theorem chained_run_of_elements (hcommon : d.isCommon = false)
    (hbits : d.recordBits = d.bitSize * d.cardinality)
    (hslot : ∀ element others, probes descriptors cached (⟨index, element, false⟩ :: others) =
      ⟨index, d.bitOffset + element * d.bitSize, d.bitSize⟩ :: probes descriptors cached others)
    (hbehind : Probe.Chained (d.bitOffset + d.recordBits) (probes descriptors cached behind)) :
    Probe.Chained d.bitOffset
      (probes descriptors cached ((SlotRun.ofDescriptor d index).slots ++ behind)) := by
  have hchain := chained_elements hslot 0 d.cardinality
    (by rw [Nat.zero_add, Nat.mul_comm, ← hbits]; exact hbehind)
  rw [SlotRun.ofDescriptor, hcommon]
  rwa [Nat.zero_mul, Nat.add_zero] at hchain

theorem chained_run_of_silent (hbits : d.recordBits = 0)
    (hslot : ∀ element others,
      probes descriptors cached (⟨index, element, d.isCommon⟩ :: others) =
        probes descriptors cached others)
    (hbehind : Probe.Chained (d.bitOffset + d.recordBits) (probes descriptors cached behind)) :
    Probe.Chained d.bitOffset
      (probes descriptors cached ((SlotRun.ofDescriptor d index).slots ++ behind)) := by
  rw [hbits, Nat.add_zero] at hbehind
  rw [probes_append_of_silent]
  · exact hbehind
  · intro slot hslots others
    obtain ⟨element, _, rfl⟩ := List.mem_map.mp hslots
    exact hslot element others

/-- What is read for a field starts with it and ends where the next one starts. -/
theorem chained_run (hd : descriptors[index]? = some d)
    (hfilled : d.recordBits = 0 ∨ 0 < d.cardinality) (hfresh : cached ≠ some index)
    (hbehind : ∀ known, known = cached ∨ known = some index →
      Probe.Chained (d.bitOffset + d.recordBits) (probes descriptors known behind)) :
    Probe.Chained d.bitOffset
      (probes descriptors cached ((SlotRun.ofDescriptor d index).slots ++ behind)) := by
  have hsame := hbehind cached (.inl rfl)
  cases hstorage : d.storage with
  | plain | immediate | pallet =>
    refine chained_run_of_elements ?_ ?_ (fun element others => ?_) hsame
    · rw [Descriptor.isCommon, hstorage]
    · rw [Descriptor.recordBits, hstorage]
    · simp [probes, hd, hstorage]
  | relationship | common =>
    refine chained_run_of_silent ?_ (fun element others => ?_) hsame
    · rw [Descriptor.recordBits, hstorage]
    · simp [probes, hd, hstorage, Descriptor.isCommon]
  | palletArray chunk =>
    have hbits : d.recordBits = d.bitSize := by
      rw [Descriptor.recordBits, hstorage]
    have hcommon : d.isCommon = false := by
      rw [Descriptor.isCommon, hstorage]
    rw [SlotRun.ofDescriptor, hcommon]
    cases hcount : d.cardinality with
    | zero =>
      -- A pallet array of no elements takes up no bits either.
      have hzero : d.recordBits = 0 := by omega
      rwa [hzero, Nat.add_zero] at hsame
    | succ count =>
      refine chained_array hd hstorage hfresh count ?_
      rw [← hbits]
      exact hbehind (some index) (.inr rfl)

end Run

/-- The elements of contiguous fields, from one field on. -/
theorem chained_runs (hcontiguous : Descriptor.Contiguous descriptors)
    (hfilled : ∀ d ∈ descriptors, d.recordBits = 0 ∨ 0 < d.cardinality)
    {before after : List Descriptor} (hsplit : descriptors = before ++ after)
    {cached : Option Nat} (hcached : ∀ i, cached = some i → i < before.length) :
    Probe.Chained (total (before.map Descriptor.recordBits)) (probes descriptors cached
      (SlotRun.flatten (SlotRun.runsFrom before.length after))) := by
  induction after generalizing before cached with
  | nil => trivial
  | cons d after ih =>
    have hd : descriptors[before.length]? = some d := by
      rw [hsplit]
      simp
    have hstart : total (before.map Descriptor.recordBits) = d.bitOffset := by
      rw [hcontiguous before.length d hd, hsplit, List.take_left]
    have hfresh : cached ≠ some before.length := fun hsame => Nat.lt_irrefl _ (hcached _ hsame)
    rw [SlotRun.runsFrom_cons, SlotRun.flatten, List.flatMap_cons, ← SlotRun.flatten, hstart]
    refine chained_run hd (hfilled d (List.mem_of_getElem? hd)) hfresh fun known hknown => ?_
    have hknown : ∀ i, known = some i → i < (before ++ [d]).length := by
      rw [List.length_append]
      rintro i rfl
      rcases hknown with hsame | hsame
      · exact Nat.lt_succ_of_lt (hcached i hsame.symm)
      · cases hsame
        exact Nat.lt_succ_self _
    have hlater : descriptors = (before ++ [d]) ++ after := by simp [hsplit]
    have hchain := ih hlater hknown
    simpa [hstart, total_append] using hchain

end Slot

/-- A row of contiguous fields decodes alike whether its elements are read on from a cursor or each
at its own place, provided that no text stands in it and its key is known from elsewhere or has been
decoded. A field that takes up bits has elements here, as it has in every file: one that has none is
a gap for the places and none for the cursor. -/
theorem Mapping.values_withMode {schema : Schema} {descriptors : List Descriptor} {column : Nat}
    {indexed : Bool} {m : Mapping} (hbuild : build schema descriptors column indexed = .ok m)
    (hcontiguous : Descriptor.Contiguous descriptors)
    (hfilled : ∀ d ∈ descriptors, d.recordBits = 0 ∨ 0 < d.cardinality)
    {c : RowContext} (hdescriptors : c.descriptors = descriptors)
    (htexts : ∀ p ∈ m.fields, p.kind = .text → ¬ p.IsInline descriptors)
    {external : Option UInt32} {data : Bytes} {strings : StringTable}
    (hkey : m.needsKey = true → external = none → ∀ body t,
      (m.fields.mapM (FieldPlan.bodyElements (c.withMode false) external)).on
        (.start data strings) = (.ok body, t) → (m.decodedKey body).isSome = true) :
    ((m.values (c.withMode true) external).on (.start data strings)).1 =
      ((m.values (c.withMode false) external).on (.start data strings)).1 := by
  subst hdescriptors
  obtain ⟨left, hleft⟩ := (built_of_build hbuild).slots_append
  have hstart : Ahead BitReader.Abreast c.descriptors [] (m.slots ++ left) (.start data strings)
      (.start data strings) := by
    refine ⟨none, rfl, rfl, rfl, rfl, ?_⟩
    rw [hleft, List.append_nil]
    exact Slot.chained_runs hcontiguous hfilled (List.nil_append _).symm nofun
  refine (values_inStep (fun _ _ => trivial) c.wordsAgree_abreast ?_ ?_ hstart).1.symm
  · exact fun p hp htext hinline => absurd hinline (htexts p hp htext)
  · -- The key has been decoded, so that neither way reads anything more.
    intro hneeded hexternal body t hrun
    obtain ⟨key, hdecoded⟩ := Option.isSome_iff_exists.mp (hkey hneeded hexternal body t hrun)
    rw [bodyKey_of_decoded hdecoded, bodyKey_of_decoded hdecoded]
    exact (inStep_pure (some key)).mono (fun s t h => h.choose_spec.strings) fun _ _ => id

/-- Five fields with one behind the other: two bytes, an array of two in the pallet block, a foreign
key, a value under the record's key, and twelve bits. -/
def mixedFields : List Descriptor :=
  [⟨0, 8, 2, .plain false⟩, ⟨16, 4, 2, .palletArray ⟨0, 16⟩⟩, ⟨20, 0, 1, .relationship⟩,
    ⟨20, 0, 1, .common 7 .none⟩, ⟨20, 12, 1, .immediate true⟩]

def mixedSchema : Schema :=
  .ofList [.scalar "key" .u8, .array "cut" .u8 2, .array "other" .u32 2, .scalar "rare" .u32,
    .scalar "last" .i16]

def mixedMapping : Mapping where
  fields := [⟨.u8, false, .slots [⟨0, 0, false⟩]⟩,
    ⟨.u8, true, .slots [⟨0, 1, false⟩, ⟨1, 0, false⟩]⟩,
    ⟨.u32, true, .slots [⟨1, 1, false⟩, ⟨2, 0, false⟩]⟩,
    ⟨.u32, false, .slots [⟨3, 0, true⟩]⟩, ⟨.i16, false, .slots [⟨4, 0, false⟩]⟩]
  keyField? := some 0
  keyDescriptor? := some 0

def mixedRow : RowContext where
  descriptors := mixedFields
  index := 0
  offset := 0
  isVariable := false
  hasRelativeStrings := false
  stringBlockStart := 0
  relationships := some ⟨[⟨0, 12⟩]⟩
  pallet := some ⟨[1, 0, 0, 0, 2, 0, 0, 0, 3, 0, 0, 0, 4, 0, 0, 0]⟩
  common := some ⟨[⟨3, [⟨5, 8⟩]⟩]⟩

theorem values_mixedRow :
    Mapping.build mixedSchema mixedFields 0 false = .ok mixedMapping ∧
      mixedMapping.needsKey = true ∧
      ((mixedMapping.values (mixedRow.withMode true) none).on
          (.start [5, 9, 0xf1, 0xff] (.ofBytes [] true))).1 =
        ((mixedMapping.values (mixedRow.withMode false) none).on
          (.start [5, 9, 0xf1, 0xff] (.ofBytes [] true))).1 := by
  have hbuild : Mapping.build mixedSchema mixedFields 0 false = .ok mixedMapping := by
    decide +kernel
  have hcontiguous : Descriptor.Contiguous mixedFields := by
    rintro (_ | _ | _ | _ | _ | i) d hd <;> cases hd <;> rfl
  have htexts : ∀ p ∈ mixedMapping.fields, p.kind ≠ .text := by
    decide
  have hdecoded : ∀ body ∈ ((mixedMapping.fields.mapM
      (FieldPlan.bodyElements (mixedRow.withMode false) none)).on
        (.start [5, 9, 0xf1, 0xff] (.ofBytes [] true))).1.toOption,
      (mixedMapping.decodedKey body).isSome = true := by
    decide +kernel
  refine ⟨hbuild, by decide, Mapping.values_withMode hbuild hcontiguous (by decide) rfl ?_ ?_⟩
  · exact fun p hp htext => absurd htext (htexts p hp)
  · intro _ _ body t hrun
    exact hdecoded body (by rw [hrun]; rfl)

/-- A pallet array of no elements still takes up the bits of its index. The byte behind them is the
first byte for the cursor, and the second one at its place. -/
theorem Mapping.values_differ_emptyArray :
    let descriptors : List Descriptor :=
      [⟨0, 8, 0, .palletArray .none⟩, ⟨8, 8, 1, .plain false⟩]
    let m : Mapping := ⟨[⟨.u8, false, .slots [⟨1, 0, false⟩]⟩], none, none⟩
    let c : RowContext := ⟨descriptors, 0, 0, false, false, 0, none, none, none⟩
    build (.ofList [.scalar "byte" .u8]) descriptors 5 false = .ok m ∧
      Descriptor.Contiguous descriptors ∧
      (∀ p ∈ m.fields, p.kind = .text → ¬ p.IsInline descriptors) ∧ m.needsKey = false ∧
      ((m.values (c.withMode true) none).on (.start [1, 2] (.ofBytes [] true))).1 ≠
        ((m.values (c.withMode false) none).on (.start [1, 2] (.ofBytes [] true))).1 := by
  intro descriptors m c
  have hcontiguous : Descriptor.Contiguous descriptors := by
    rintro (_ | _ | i) d hd <;> cases hd <;> rfl
  have htexts : ∀ p ∈ m.fields, p.kind ≠ .text := by decide
  exact ⟨by decide +kernel, hcontiguous, fun p hp htext => absurd htext (htexts p hp), by decide,
    by decide +kernel⟩

end ClientTable
