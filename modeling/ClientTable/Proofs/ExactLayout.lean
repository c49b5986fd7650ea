import ClientTable.Proofs.Containment
import ClientTable.Proofs.MachineOpening

/-!
The plan of a file against integers without bound. Each format lists its segments in one fixed
order; integers say where each of them has to lie, and the plan agrees with them to the byte. It
fails just where the integers leave the range of what can be planned.
-/

namespace ClientTable

open Attempt

/-- A segment as integers place it. -/
structure Stretch where
  kind : SegmentKind
  start : Int
  length : Int
  deriving DecidableEq, Repr

namespace Stretch

def stop (s : Stretch) : Int :=
  s.start + s.length

/-- Stretches back to back from `start` on; `length` says how long a kind is at its place. -/
def chain (length : Int → SegmentKind → Int) : (start : Int) → List SegmentKind → List Stretch
  | _, [] => []
  | start, kind :: kinds =>
    ⟨kind, start, length start kind⟩ :: chain length (start + length start kind) kinds

@[simp]
theorem map_kind_chain (length : Int → SegmentKind → Int) (start : Int)
    (kinds : List SegmentKind) : (chain length start kinds).map kind = kinds := by
  induction kinds generalizing start with
  | nil => rfl
  | cons kind kinds ih => simp [chain, ih]

/-- Whether a position lies in the stretch. -/
def covers (s : Stretch) (position : Int) : Bool :=
  decide (s.start ≤ position ∧ position < s.stop)

@[simp]
theorem covers_eq_true {s : Stretch} {position : Int} :
    s.covers position = true ↔ s.start ≤ position ∧ position < s.stop :=
  decide_eq_true_iff

theorem sum_length_nonneg {stretches : List Stretch} (h : ∀ s ∈ stretches, 0 ≤ s.length) :
    0 ≤ (stretches.map length).sum :=
  List.sum_nonneg (by simpa using h)

theorem countP_covers_chain {length : Int → SegmentKind → Int} {start : Int}
    {kinds : List SegmentKind} (h : ∀ s ∈ chain length start kinds, 0 ≤ s.length)
    (position : Int) :
    (chain length start kinds).countP (fun s => s.covers position) =
      if start ≤ position ∧
        position < start + ((chain length start kinds).map Stretch.length).sum then 1 else 0 := by
  induction kinds generalizing start with
  | nil =>
      simp only [chain, List.countP_nil, List.map_nil, List.sum_nil]
      rw [if_neg (by omega)]
  | cons kind kinds ih =>
      obtain ⟨hfirst, hothers⟩ := List.forall_mem_cons.mp h
      have hrest := sum_length_nonneg hothers
      rw [chain, List.countP_cons, ih hothers, List.map_cons, List.sum_cons]
      simp only [covers_eq_true, stop] at hfirst ⊢
      split_ifs <;> omega

end Stretch

def Segment.stretch (s : Segment) : Stretch :=
  ⟨s.kind, s.start, s.length⟩

/-- A section among integers: its index, its record count and its segments. -/
def SectionLayout.exact (l : SectionLayout) : Nat × UInt32 × List Stretch :=
  (l.index, l.recordCount, l.segments.map Segment.stretch)

namespace SegmentKind

/-- What stands behind the header, in the order in which it stands there. -/
def fileOrder : Signature → List SegmentKind
  | .wdbc | .wdb2 => [legacyLookup, records, stringBlock]
  | .wdb3 | .wdb4 => []
  | .wdb5 | .wdb6 =>
    [fieldInfo, records, stringBlock, offsetMap, relationshipTable, indexTable, copyTable,
      commonData]
  | .wdc1 =>
    [fieldInfo, records, stringBlock, offsetMap, indexTable, copyTable, fieldStorageInfo,
      palletData, commonData, relationshipTable]
  | .wdc2 => [fieldInfo, fieldStorageInfo, palletData, commonData]

/-- What stands in a section of a WDC2 file, in the order in which it stands there. -/
def sectionOrder : List SegmentKind :=
  [records, stringBlock, offsetMap, indexTable, copyTable, relationshipTable]

end SegmentKind

namespace Header

/-- Whether the records vary in length. Formats without field info do not heed the flag. -/
def isVariable (h : Header) : Bool :=
  h.signature.hasFieldInfo && h.hasOffsetMap

/-- Whether there is a place for a segment of this kind. -/
def places (h : Header) : SegmentKind → Bool
  | .legacyLookup => h.signature = .wdb2 && h.maxIndex ≠ 0
  | .stringBlock => !h.isVariable
  | .offsetMap => h.isVariable
  | .relationshipTable => h.signature.hasStorageInfo || h.flags.hasRelationships
  | .indexTable => h.signature.hasStorageInfo || h.flags.hasIndexTable
  | .commonData => h.signature ≠ .wdb5
  | _ => true

/-- Whether a segment of this kind has a slot for every id. -/
def slotted (h : Header) : SegmentKind → Bool
  | .legacyLookup | .offsetMap => true
  | .relationshipTable => !h.signature.hasStorageInfo
  | _ => false

def idSpan (h : Header) : Int :=
  h.maxIndex.toNat - h.minIndex.toNat + 1

def soleSection (h : Header) : SectionHeader where
  tactKeyHash := 0
  fileOffset := 0
  recordCount := h.recordCount
  stringTableSize := h.stringTableSize
  copyTableSize := h.copyTableSize
  offsetMapOffset :=
    if h.signature.hasStorageInfo then h.storageSizes.offsetMapOffset else h.stringTableSize
  idListSize := h.storageSizes.idListSize
  relationshipDataSize := h.storageSizes.relationshipDataSize

/-- The exact length of what stands at `start`, file-wide or in a section. -/
def exactLength (h : Header) (s : SectionHeader) (start : Int) : SegmentKind → Int
  | .legacyLookup => h.idSpan * 6
  | .fieldInfo =>
    (if h.signature = .wdc2 then h.totalFieldCount.toNat else h.fieldCount.toNat : Nat) * 4
  | .records =>
    if h.isVariable then s.offsetMapOffset.toNat - start
    else s.recordCount.toNat * h.recordSize.toNat
  | .stringBlock => s.stringTableSize.toNat
  | .offsetMap => h.idSpan * 6
  | .relationshipTable =>
    if h.signature.hasStorageInfo then s.relationshipDataSize.toNat else h.idSpan * 4
  | .indexTable =>
    if h.signature.hasStorageInfo then s.idListSize.toNat else s.recordCount.toNat * 4
  | .copyTable => s.copyTableSize.toNat
  | .fieldStorageInfo => h.storageSizes.fieldStorageInfoSize.toNat
  | .palletData => h.storageSizes.palletDataSize.toNat
  | .commonData => h.commonDataSize.toNat

def fileStretches (h : Header) : List Stretch :=
  Stretch.chain (h.exactLength h.soleSection) h.headerEnd
    ((SegmentKind.fileOrder h.signature).filter h.places)

def sectionStretches (h : Header) (s : SectionHeader) : List Stretch :=
  Stretch.chain (h.exactLength s) s.fileOffset.toNat (SegmentKind.sectionOrder.filter h.places)

def plannedEnd (h : Header) : Int :=
  h.headerEnd + (h.fileStretches.map Stretch.length).sum

/-- A stretch that a plan may have: its ids run upwards, a record area does not end before it
starts, and it ends at a 64-bit position. -/
structure Admits (h : Header) (s : Stretch) : Prop where
  ids : h.slotted s.kind = true → h.minIndex.toNat ≤ h.maxIndex.toNat
  records : s.kind = .records → s.start ≤ s.stop
  stop : s.stop < 2 ^ 64

/-- Everything that the header announces may be planned. -/
structure IsPlannable (h : Header) : Prop where
  file : ∀ s ∈ h.fileStretches, h.Admits s
  sections : h.signature = .wdc2 → ∀ s ∈ h.sections, ∀ t ∈ h.sectionStretches s, h.Admits t

/-- The sections that a header announces, their indices, record counts and stretches. -/
def exactSections (h : Header) : List (Nat × UInt32 × List Stretch) :=
  if h.signature = .wdc2 then
    h.sections.mapIdx fun index s => (index, s.recordCount, h.sectionStretches s)
  else [(0, h.recordCount, h.fileStretches.filter fun s => !s.kind.isShared)]

end Header

namespace Attempt

variable {α β : Type} {P P' : Prop} {Q : α → Prop} {R : β → Prop}

/-- Succeeds just if `P` holds, with a result as `Q` says; else the file is found malformed. -/
structure SucceedsIff (P : Prop) (Q : α → Prop) (x : Except Error α) : Prop where
  succeeds : P → ∃ a, x = .ok a ∧ Q a
  fails : ¬P → ∃ fault, x = .error (.invalid fault)

theorem SucceedsIff.pure {a : α} (h : Q a) : SucceedsIff True Q (pure a) :=
  ⟨fun _ => ⟨a, rfl, h⟩, fun hnot => absurd trivial hnot⟩

theorem SucceedsIff.bind {x : Except Error α} {f : α → Except Error β} (hx : SucceedsIff P Q x)
    (hf : ∀ a, Q a → SucceedsIff P' R (f a)) : SucceedsIff (P ∧ P') R (x >>= f) := by
  by_cases hp : P
  · obtain ⟨a, rfl, ha⟩ := hx.succeeds hp
    refine ⟨fun h => (hf a ha).succeeds h.2, fun hnot => (hf a ha).fails fun hp' => hnot ⟨hp, hp'⟩⟩
  · obtain ⟨fault, rfl⟩ := hx.fails hp
    exact ⟨fun h => absurd h.1 hp, fun _ => ⟨fault, rfl⟩⟩

theorem SucceedsIff.of_iff {x : Except Error α} (hx : SucceedsIff P Q x) (h : P' ↔ P) :
    SucceedsIff P' Q x :=
  ⟨fun hp => hx.succeeds (h.mp hp), fun hnot => hx.fails fun hp => hnot (h.mpr hp)⟩

theorem SucceedsIff.of_eq_ok {x : Except Error α} {a : α} (hx : SucceedsIff P Q x)
    (h : x = .ok a) : P ∧ Q a := by
  subst h
  have hp : P := by
    by_contra hnot
    obtain ⟨fault, hfault⟩ := hx.fails hnot
    cases hfault
  obtain ⟨_, ⟨⟩, hq⟩ := hx.succeeds hp
  exact ⟨hp, hq⟩

end Attempt

namespace Extent

variable (h : Header)

def exact (start : Int) : Extent → Int
  | bytes count => count
  | upTo stop => stop - start
  | perId size => h.idSpan * size

def Fits (start : Int) : Extent → Prop
  | bytes _ => True
  | upTo stop => start ≤ stop
  | perId _ => h.minIndex.toNat ≤ h.maxIndex.toNat

theorem succeedsIff_idCount :
    SucceedsIff (h.minIndex.toNat ≤ h.maxIndex.toNat) (fun count : Nat => (count : Int) = h.idSpan)
      (idCount h) := by
  unfold idCount
  simp only [UInt32.lt_iff_toNat_lt]
  constructor
  · intro hle
    rw [if_neg (Nat.not_lt.mpr hle)]
    refine ⟨_, rfl, ?_⟩
    simp only [Header.idSpan]
    omega
  · intro hgt
    rw [if_pos (Nat.not_le.mp hgt)]
    exact ⟨_, rfl⟩

theorem succeedsIff_length (start : Nat) (extent : Extent) :
    SucceedsIff (extent.Fits h start) (fun length : Nat => (length : Int) = extent.exact h start)
      (extent.length h start) := by
  cases extent with
  | bytes count => exact .pure rfl
  | upTo stop =>
      simp only [length, Fits, exact]
      constructor
      · intro hle
        rw [if_neg (by omega)]
        exact ⟨_, rfl, by omega⟩
      · intro hgt
        rw [if_pos (by omega)]
        exact ⟨_, rfl⟩
  | perId size =>
      have hlength : SucceedsIff (h.minIndex.toNat ≤ h.maxIndex.toNat ∧ True)
          (fun length : Nat => (length : Int) = exact h start (perId size))
          (length h start (perId size)) :=
        (succeedsIff_idCount h).bind fun count hcount => .pure (by simp [exact, ← hcount])
      exact hlength.of_iff (and_true _).symm.to_iff

end Extent

namespace Layout

variable {h : Header} {s : SectionHeader}

/-- A request for as much of a kind as integers say. -/
structure AsksExactly (h : Header) (s : SectionHeader) (request : Request) : Prop where
  length : ∀ start, request.2.exact h start = h.exactLength s start request.1
  fits : ∀ start, request.2.Fits h start ↔
    (h.slotted request.1 = true → h.minIndex.toNat ≤ h.maxIndex.toNat) ∧
      (request.1 = .records → 0 ≤ h.exactLength s start request.1)

/-- Placing succeeds just if everything may be placed, and then it places as integers do. -/
theorem succeedsIff_place {requests : List Request}
    (hrequests : ∀ request ∈ requests, AsksExactly h s request) (start : Nat) :
    SucceedsIff (∀ t ∈ Stretch.chain (h.exactLength s) start (requests.map Prod.fst), h.Admits t)
      (fun segments => segments.map Segment.stretch =
        Stretch.chain (h.exactLength s) start (requests.map Prod.fst))
      (place h start requests) := by
  induction requests generalizing start with
  | nil => exact SucceedsIff.of_iff (SucceedsIff.pure rfl) (by simp [Stretch.chain])
  | cons request requests ih =>
      obtain ⟨kind, extent⟩ := request
      obtain ⟨hfirst, hothers⟩ := List.forall_mem_cons.mp hrequests
      have hlength := extent.succeedsIff_length h start
      rw [show extent.exact h start = _ from hfirst.length start] at hlength
      have hplace : SucceedsIff (extent.Fits h start ∧
          ((start : Int) + h.exactLength s start kind < 2 ^ 64 ∧
            ∀ t ∈ Stretch.chain (h.exactLength s) (start + h.exactLength s start kind)
              (requests.map Prod.fst), h.Admits t))
          (fun segments => segments.map Segment.stretch =
            Stretch.chain (h.exactLength s) start (kind :: requests.map Prod.fst))
          (place h start ((kind, extent) :: requests)) := by
        refine hlength.bind fun length hlength => ?_
        rw [← hlength]
        dsimp only
        split
        case isTrue hover =>
          -- The end does not fit, and so integers do not admit the first stretch either.
          rw [positionLimit] at hover
          exact ⟨fun hp => absurd hp.1 (by omega), fun _ => ⟨_, rfl⟩⟩
        case isFalse hfits =>
          rw [positionLimit] at hfits
          have hrest := ih hothers (start + length)
          rw [Nat.cast_add] at hrest
          refine SucceedsIff.of_iff (hrest.bind fun segments hsegments => .pure ?_)
            ⟨fun hp => ⟨hp.2, trivial⟩, fun hp => ⟨by omega, hp.1⟩⟩
          rw [List.map_cons, hsegments, Stretch.chain, ← hlength]
          rfl
      refine hplace.of_iff ?_
      rw [hfirst.fits start]
      simp only [List.map_cons, Stretch.chain, List.forall_mem_cons]
      constructor
      · rintro ⟨⟨hids, hrecords, hstop⟩, hrest⟩
        refine ⟨⟨hids, fun hkind => ?_⟩, hstop, hrest⟩
        have hbehind := hrecords hkind
        simp only [Stretch.stop] at hbehind
        omega
      · rintro ⟨⟨hids, hrecords⟩, hstop, hrest⟩
        refine ⟨⟨hids, fun hkind => ?_, hstop⟩, hrest⟩
        have hbehind := hrecords hkind
        simp only [Stretch.stop]
        omega

/-! The requests of each format ask for what integers say, in its fixed order. -/

theorem asksExactly_bytes {kind : SegmentKind} {count : Nat} (hslotted : h.slotted kind = false)
    (hlength : ∀ start, h.exactLength s start kind = count) :
    AsksExactly h s (kind, .bytes count) := by
  refine ⟨fun start => (hlength start).symm, fun start => ?_⟩
  simp [Extent.Fits, hslotted, hlength]

theorem asksExactly_perId {kind : SegmentKind} {size : Nat} (hslotted : h.slotted kind = true)
    (hkind : kind ≠ .records) (hlength : ∀ start, h.exactLength s start kind = h.idSpan * size) :
    AsksExactly h s (kind, .perId size) := by
  refine ⟨fun start => (hlength start).symm, fun start => ?_⟩
  simp [Extent.Fits, hslotted, hkind]

theorem asksExactly_recordArea (hinfo : h.signature.hasFieldInfo = true) :
    AsksExactly h s (recordArea h s.recordCount s.offsetMapOffset) := by
  have hvariable : h.isVariable = h.hasOffsetMap := by simp [Header.isVariable, hinfo]
  unfold recordArea
  cases hmap : h.hasOffsetMap with
  | false =>
      refine asksExactly_bytes rfl fun start => ?_
      simp [Header.exactLength, hvariable, hmap]
  | true =>
      refine ⟨fun start => ?_, fun start => ?_⟩
      · simp [Header.exactLength, hvariable, hmap, Extent.exact]
      · simp [Header.exactLength, hvariable, hmap, Extent.Fits, Header.slotted]

theorem asksExactly_stringsOrOffsets :
    AsksExactly h s (stringsOrOffsets h s.stringTableSize) := by
  unfold stringsOrOffsets
  split
  · exact asksExactly_perId rfl (by decide) fun _ => rfl
  · exact asksExactly_bytes rfl fun _ => rfl

theorem forall_mem_optional {c : Prop} [Decidable c] {request : Request}
    {P : Request → Prop} (hrequest : P request) : ∀ r ∈ if c then [request] else [], P r := by
  split <;> simp [hrequest]

theorem asksExactly_simpleRequests (hinfo : h.signature.hasFieldInfo = false) :
    ∀ request ∈ simpleRequests h, AsksExactly h h.soleSection request := by
  have hvariable : h.isVariable = false := by simp [Header.isVariable, hinfo]
  simp only [simpleRequests, List.forall_mem_append, List.forall_mem_cons]
  refine ⟨forall_mem_optional ?_, ?_, ?_, List.forall_mem_nil _⟩
  · exact asksExactly_perId rfl (by decide) fun _ => rfl
  · refine asksExactly_bytes rfl fun _ => ?_
    simp [Header.exactLength, hvariable, Header.soleSection]
  · exact asksExactly_bytes rfl fun _ => rfl

theorem asksExactly_flaggedRequests (hsignature : h.signature = .wdb5 ∨ h.signature = .wdb6) :
    ∀ request ∈ flaggedRequests h, AsksExactly h h.soleSection request := by
  have hinfo : h.signature.hasFieldInfo = true := by
    rcases hsignature with hs | hs <;> rw [hs] <;> rfl
  have hstorage : h.signature.hasStorageInfo = false := by
    rcases hsignature with hs | hs <;> rw [hs] <;> rfl
  have hsole : h.signature ≠ .wdc2 := by
    rcases hsignature with hs | hs <;> rw [hs] <;> decide
  have hmap : h.soleSection.offsetMapOffset = h.stringTableSize := by
    simp [Header.soleSection, hstorage]
  simp only [flaggedRequests, List.forall_mem_append, List.forall_mem_cons]
  refine ⟨⟨⟨⟨⟨?_, ?_, ?_, List.forall_mem_nil _⟩, forall_mem_optional ?_⟩,
    forall_mem_optional ?_⟩, ?_, List.forall_mem_nil _⟩, forall_mem_optional ?_⟩
  · refine asksExactly_bytes rfl fun _ => ?_
    simp [Header.exactLength, hsole]
  · rw [← hmap]
    exact asksExactly_recordArea hinfo
  · exact asksExactly_stringsOrOffsets (s := h.soleSection)
  · refine asksExactly_perId ?_ (by decide) fun _ => ?_
    · simp [Header.slotted, hstorage]
    · simp [Header.exactLength, hstorage]
  · refine asksExactly_bytes rfl fun _ => ?_
    simp [Header.exactLength, hstorage, Header.soleSection]
  · exact asksExactly_bytes rfl fun _ => rfl
  · exact asksExactly_bytes rfl fun _ => rfl

theorem asksExactly_storedRequests (hsignature : h.signature = .wdc1) :
    ∀ request ∈ storedRequests h, AsksExactly h h.soleSection request := by
  have hstorage : h.signature.hasStorageInfo = true := by rw [hsignature]; rfl
  have hmap : h.soleSection.offsetMapOffset = h.storageSizes.offsetMapOffset := by
    simp [Header.soleSection, hstorage]
  simp only [storedRequests, List.forall_mem_cons]
  refine ⟨?_, ?_, ?_, ?_, ?_, ?_, ?_, ?_, ?_, List.forall_mem_nil _⟩
  · refine asksExactly_bytes rfl fun _ => ?_
    simp [Header.exactLength, hsignature]
  · rw [← hmap]
    exact asksExactly_recordArea (by rw [hsignature]; rfl)
  · exact asksExactly_stringsOrOffsets (s := h.soleSection)
  · refine asksExactly_bytes rfl fun _ => ?_
    simp [Header.exactLength, hstorage, Header.soleSection]
  · exact asksExactly_bytes rfl fun _ => rfl
  · exact asksExactly_bytes rfl fun _ => rfl
  · exact asksExactly_bytes rfl fun _ => rfl
  · exact asksExactly_bytes rfl fun _ => rfl
  · refine asksExactly_bytes ?_ fun _ => ?_
    · simp [Header.slotted, hstorage]
    · simp [Header.exactLength, hstorage, Header.soleSection]

theorem asksExactly_sharedRequests (hsignature : h.signature = .wdc2) :
    ∀ request ∈ sharedRequests h, AsksExactly h s request := by
  simp only [sharedRequests, List.forall_mem_cons]
  refine ⟨?_, ?_, ?_, ?_, List.forall_mem_nil _⟩
  · refine asksExactly_bytes rfl fun _ => ?_
    simp [Header.exactLength, hsignature]
  · exact asksExactly_bytes rfl fun _ => rfl
  · exact asksExactly_bytes rfl fun _ => rfl
  · exact asksExactly_bytes rfl fun _ => rfl

theorem asksExactly_sectionRequests (hsignature : h.signature = .wdc2) :
    ∀ request ∈ sectionRequests h s, AsksExactly h s request := by
  have hstorage : h.signature.hasStorageInfo = true := by rw [hsignature]; rfl
  simp only [sectionRequests, List.forall_mem_cons]
  refine ⟨?_, ?_, ?_, ?_, ?_, List.forall_mem_nil _⟩
  · exact asksExactly_recordArea (by rw [hsignature]; rfl)
  · exact asksExactly_stringsOrOffsets
  · refine asksExactly_bytes rfl fun _ => ?_
    simp [Header.exactLength, hstorage]
  · exact asksExactly_bytes rfl fun _ => rfl
  · refine asksExactly_bytes ?_ fun _ => ?_
    · simp [Header.slotted, hstorage]
    · simp [Header.exactLength, hstorage]

def fileRequests (h : Header) : List Request :=
  match h.signature with
  | .wdbc | .wdb2 => simpleRequests h
  | .wdb3 | .wdb4 => []
  | .wdb5 | .wdb6 => flaggedRequests h
  | .wdc1 => storedRequests h
  | .wdc2 => sharedRequests h

theorem asksExactly_fileRequests :
    ∀ request ∈ fileRequests h, AsksExactly h h.soleSection request := by
  unfold fileRequests
  cases hsignature : h.signature with
  | wdbc | wdb2 => exact asksExactly_simpleRequests (by rw [hsignature]; rfl)
  | wdb3 | wdb4 => exact List.forall_mem_nil _
  | wdb5 => exact asksExactly_flaggedRequests (.inl hsignature)
  | wdb6 => exact asksExactly_flaggedRequests (.inr hsignature)
  | wdc1 => exact asksExactly_storedRequests hsignature
  | wdc2 => exact asksExactly_sharedRequests hsignature

theorem map_fst_fileRequests :
    (fileRequests h).map Prod.fst = (SegmentKind.fileOrder h.signature).filter h.places := by
  unfold fileRequests
  cases hsignature : h.signature with
  | wdbc | wdb2 =>
      have hvariable : h.isVariable = false := by rw [Header.isVariable, hsignature]; rfl
      by_cases hmax : h.maxIndex = 0 <;>
        simp [simpleRequests, SegmentKind.fileOrder, Header.places, sized, List.filter_cons,
          hsignature, hvariable, hmax]
  | wdb3 | wdb4 => rfl
  | wdb5 | wdb6 =>
      have hvariable : h.isVariable = h.hasOffsetMap := by rw [Header.isVariable, hsignature]; rfl
      cases hmap : h.hasOffsetMap <;> cases hrelated : h.flags.hasRelationships <;>
        cases hindexed : h.flags.hasIndexTable <;>
        simp [flaggedRequests, SegmentKind.fileOrder, Header.places, recordArea, stringsOrOffsets,
          sized, words, List.filter_cons, hsignature, hvariable, hmap, hrelated, hindexed,
          Signature.hasStorageInfo]
  | wdc1 =>
      have hvariable : h.isVariable = h.hasOffsetMap := by rw [Header.isVariable, hsignature]; rfl
      cases hmap : h.hasOffsetMap <;>
        simp [storedRequests, SegmentKind.fileOrder, Header.places, recordArea, stringsOrOffsets,
          sized, words, List.filter_cons, hsignature, hvariable, hmap, Signature.hasStorageInfo]
  | wdc2 =>
      simp [sharedRequests, SegmentKind.fileOrder, Header.places, sized, words, List.filter_cons,
        hsignature]

theorem map_fst_sectionRequests (hsignature : h.signature = .wdc2) :
    (sectionRequests h s).map Prod.fst = SegmentKind.sectionOrder.filter h.places := by
  have hvariable : h.isVariable = h.hasOffsetMap := by rw [Header.isVariable, hsignature]; rfl
  cases hmap : h.hasOffsetMap <;>
    simp [sectionRequests, SegmentKind.sectionOrder, Header.places, recordArea, stringsOrOffsets,
      sized, List.filter_cons, hsignature, hvariable, hmap, Signature.hasStorageInfo]

/-! Placing succeeds just if everything may be placed. -/

theorem succeedsIff_placeFile (h : Header) :
    SucceedsIff (∀ t ∈ h.fileStretches, h.Admits t)
      (fun segments => segments.map Segment.stretch = h.fileStretches)
      (place h h.headerEnd (fileRequests h)) := by
  have hplace := succeedsIff_place (asksExactly_fileRequests (h := h)) h.headerEnd
  rw [map_fst_fileRequests] at hplace
  exact hplace

theorem succeedsIff_planSection (hsignature : h.signature = .wdc2) (index : Nat)
    (s : SectionHeader) :
    SucceedsIff (∀ t ∈ h.sectionStretches s, h.Admits t)
      (fun layout => layout.exact = (index, s.recordCount, h.sectionStretches s))
      (planSection h index s) := by
  have hplace := succeedsIff_place (asksExactly_sectionRequests (s := s) hsignature)
    s.fileOffset.toNat
  rw [map_fst_sectionRequests hsignature] at hplace
  refine SucceedsIff.of_iff (hplace.bind fun segments hsegments => .pure ?_)
    (and_true _).symm.to_iff
  rw [SectionLayout.exact, hsegments]
  rfl

theorem succeedsIff_planSections (hsignature : h.signature = .wdc2) (index : Nat)
    (headers : List SectionHeader) :
    SucceedsIff (∀ s ∈ headers, ∀ t ∈ h.sectionStretches s, h.Admits t)
      (fun sections => sections.map SectionLayout.exact =
        headers.mapIdx fun i s => (index + i, s.recordCount, h.sectionStretches s))
      (planSections h index headers) := by
  induction headers generalizing index with
  | nil => exact SucceedsIff.of_iff (SucceedsIff.pure rfl) (by simp)
  | cons s headers ih =>
      refine SucceedsIff.of_iff ((succeedsIff_planSection hsignature index s).bind
        fun first hfirst => (ih (index + 1)).bind fun others hothers => .pure ?_) ?_
      · simp [List.mapIdx_cons, hfirst, hothers, Nat.add_assoc, Nat.add_comm 1]
      · simp

/-- What the plan of a file holds among integers. -/
structure Agrees (h : Header) (layout : Layout) : Prop where
  shared : layout.shared.map Segment.stretch = h.fileStretches.filter fun t => t.kind.isShared
  sections : layout.sections.map SectionLayout.exact = h.exactSections

theorem filter_map_stretch (keep : SegmentKind → Bool) (segments : List Segment) :
    (segments.filter fun s => keep s.kind).map Segment.stretch =
      (segments.map Segment.stretch).filter fun t => keep t.kind := by
  simp only [List.filter_map]
  rfl

theorem agrees_ofChain (hsole : h.signature ≠ .wdc2) {segments : List Segment}
    (hsegments : segments.map Segment.stretch = h.fileStretches) :
    (ofChain h segments).Agrees h := by
  constructor
  · rw [← hsegments]
    exact filter_map_stretch SegmentKind.isShared segments
  · rw [Header.exactSections, if_neg hsole, ← hsegments,
      ← filter_map_stretch (fun kind => !kind.isShared) segments]
    rfl

theorem filter_isShared_fileStretches (hsectioned : h.signature = .wdc2) :
    (h.fileStretches.filter fun t => t.kind.isShared) = h.fileStretches := by
  apply List.filter_eq_self.mpr
  intro t ht
  have hkind : t.kind ∈ h.fileStretches.map Stretch.kind := List.mem_map_of_mem ht
  rw [Header.fileStretches, Stretch.map_kind_chain, hsectioned] at hkind
  have hshared : ∀ kind ∈ SegmentKind.fileOrder .wdc2, kind.isShared = true := by decide
  exact hshared t.kind (List.mem_filter.mp hkind).1

theorem succeedsIff_plan (hversion : h.signature.needsClientMetadata = false) :
    SucceedsIff h.IsPlannable (Agrees h) (plan h) := by
  have hfile := succeedsIff_placeFile h
  by_cases hsectioned : h.signature = .wdc2
  · have hplannable : h.IsPlannable ↔ (∀ t ∈ h.fileStretches, h.Admits t) ∧
        (∀ s ∈ h.sections, ∀ t ∈ h.sectionStretches s, h.Admits t) ∧ True :=
      ⟨fun hp => ⟨hp.file, hp.sections hsectioned, trivial⟩, fun hp => ⟨hp.1, fun _ => hp.2.1⟩⟩
    unfold plan
    unfold fileRequests at hfile
    rw [hsectioned] at hfile ⊢
    refine SucceedsIff.of_iff (hfile.bind fun shared hshared =>
      (succeedsIff_planSections hsectioned 0 h.sections).bind fun sections hsections =>
        .pure ⟨?_, ?_⟩) hplannable
    · rw [hshared, filter_isShared_fileStretches hsectioned]
    · rw [hsections, Header.exactSections, if_pos hsectioned]
      simp
  · have hplannable : h.IsPlannable ↔ (∀ t ∈ h.fileStretches, h.Admits t) ∧ True :=
      ⟨fun hp => ⟨hp.file, trivial⟩, fun hp => ⟨hp.1, fun hs => absurd hs hsectioned⟩⟩
    have hplan : plan h = (do return ofChain h (← place h h.headerEnd (fileRequests h))) := by
      unfold plan fileRequests
      cases hs : h.signature <;> first | rfl | simp_all [Signature.needsClientMetadata]
    rw [hplan]
    exact SucceedsIff.of_iff (hfile.bind fun segments hsegments =>
      .pure (agrees_ofChain hsectioned hsegments)) hplannable

end Layout

/-! Stretches back to back cover each position once. -/

namespace Segment

/-- Segments back to back from `start` on. -/
def Contiguous : (start : Nat) → List Segment → Prop
  | _, [] => True
  | start, s :: segments => s.start = start ∧ Contiguous s.stop segments

def covers (s : Segment) (position : Nat) : Bool :=
  decide (s.start ≤ position ∧ position < s.stop)

theorem covers_stretch (s : Segment) (position : Nat) :
    s.stretch.covers position = s.covers position := by
  apply decide_eq_decide.mpr
  simp only [stretch, Stretch.stop, stop]
  omega

theorem contiguous_of_chain {length : Int → SegmentKind → Int} {start : Nat}
    {kinds : List SegmentKind} {segments : List Segment}
    (h : segments.map stretch = Stretch.chain length start kinds) : Contiguous start segments := by
  induction segments generalizing start kinds with
  | nil => trivial
  | cons s segments ih =>
      cases kinds with
      | nil => cases h
      | cons kind kinds =>
          obtain ⟨hfirst, hothers⟩ := List.cons.inj h
          simp only [stretch, Stretch.mk.injEq] at hfirst
          obtain ⟨-, hstart, hlength⟩ := hfirst
          obtain rfl : s.start = start := Int.ofNat.inj hstart
          rw [← hlength, ← Nat.cast_add] at hothers
          exact ⟨rfl, ih hothers⟩

end Segment

namespace Layout

variable {h : Header} {layout : Layout}

/-- How a planned layout lies in the file. -/
structure IsExact (h : Header) (layout : Layout) : Prop extends layout.Agrees h where
  covered : h.signature ≠ .wdc2 → ∀ position : Nat,
    layout.segments.countP (fun s => s.covers position) =
      if h.headerEnd ≤ position ∧ (position : Int) < h.plannedEnd then 1 else 0
  sharedContiguous : h.signature = .wdc2 → Segment.Contiguous h.headerEnd layout.shared
  sectionsContiguous : h.signature = .wdc2 →
    List.Forall₂ (fun (s : SectionHeader) l => Segment.Contiguous s.fileOffset.toNat l.segments)
      h.sections layout.sections

theorem Agrees.covered (hagrees : layout.Agrees h) (hsole : h.signature ≠ .wdc2)
    (position : Nat) :
    layout.segments.countP (fun s => s.covers position) =
      if h.headerEnd ≤ position ∧ (position : Int) < h.plannedEnd then 1 else 0 := by
  have hsections := hagrees.sections
  rw [Header.exactSections, if_neg hsole] at hsections
  obtain ⟨only, hone, hsections⟩ := List.map_eq_singleton_iff.mp hsections
  simp only [SectionLayout.exact, Prod.mk.injEq] at hsections
  have hnonneg : ∀ t ∈ h.fileStretches, 0 ≤ t.length := by
    intro t ht
    have hplaced : t ∈ layout.shared.map Segment.stretch ∨
        t ∈ only.segments.map Segment.stretch := by
      rw [hagrees.shared, hsections.2.2, List.mem_filter, List.mem_filter]
      cases t.kind.isShared <;> simp [ht]
    rw [← List.mem_append, ← List.map_append] at hplaced
    obtain ⟨s, -, rfl⟩ := List.mem_map.mp hplaced
    exact Int.natCast_nonneg s.length
  have hcount (segments : List Segment) :
      segments.countP (fun s => s.covers position) =
        (segments.map Segment.stretch).countP (fun t => t.covers position) := by
    rw [List.countP_map]
    exact congrArg (segments.countP ·) (funext fun s => (s.covers_stretch position).symm)
  have hchain := Stretch.countP_covers_chain hnonneg position
  rw [segments, hone, List.flatMap_singleton, List.countP_append, hcount, hcount, hagrees.shared,
    hsections.2.2, ← List.countP_eq_countP_filter_add]
  exact hchain.trans (if_congr (and_congr_left fun _ => Int.ofNat_le) rfl rfl)

theorem forall₂_of_map_eq_mapIdx {α β γ : Type} {R : α → β → Prop} {f : β → γ} {g : Nat → α → γ}
    {items : List α} {results : List β} (h : results.map f = items.mapIdx g)
    (hR : ∀ index a b, f b = g index a → R a b) : List.Forall₂ R items results := by
  induction items generalizing results g with
  | nil =>
      obtain rfl := List.map_eq_nil_iff.mp h
      exact .nil
  | cons a items ih =>
      rw [List.mapIdx_cons] at h
      obtain ⟨b, others, rfl, hfirst, hothers⟩ := List.map_eq_cons_iff.mp h
      exact .cons (hR 0 a b hfirst) (ih hothers fun index => hR (index + 1))

theorem isExact_of_agrees (hagrees : layout.Agrees h) : layout.IsExact h := by
  refine ⟨hagrees, fun hsole => hagrees.covered hsole, fun hsectioned => ?_, fun hsectioned => ?_⟩
  · have hshared := hagrees.shared
    rw [filter_isShared_fileStretches hsectioned] at hshared
    exact Segment.contiguous_of_chain hshared
  · have hsections := hagrees.sections
    rw [Header.exactSections, if_pos hsectioned] at hsections
    refine forall₂_of_map_eq_mapIdx hsections fun index s l hl => ?_
    simp only [SectionLayout.exact, Prod.mk.injEq] at hl
    exact Segment.contiguous_of_chain hl.2.2

/-- Planning is exact. It succeeds just if everything that the header announces may be planned, else
it finds the file malformed; and a planned layout is the one that integers give, without a gap and
without an overlap. -/
theorem plan_isExact (hversion : h.signature.needsClientMetadata = false) :
    Machine.plan h = liftM (plan h) ∧
      ((∃ layout, plan h = .ok layout) ↔ h.IsPlannable) ∧
      (¬h.IsPlannable → ∃ fault, plan h = .error (.invalid fault)) ∧
      ∀ layout, plan h = .ok layout → layout.IsExact h := by
  have hplan := succeedsIff_plan hversion
  refine ⟨Machine.plan_eq h, ⟨?_, fun hp => ?_⟩, hplan.fails, fun layout hlayout => ?_⟩
  · rintro ⟨layout, hlayout⟩
    exact (hplan.of_eq_ok hlayout).1
  · obtain ⟨layout, hlayout, -⟩ := hplan.succeeds hp
    exact ⟨layout, hlayout⟩
  · exact isExact_of_agrees (hplan.of_eq_ok hlayout).2

/-- A WDB6 header with every optional segment: two records with the ids 3 to 5. -/
def fullHeader : Header :=
  { Header.basic .wdb6 2 1 4 68 with
    minIndex := 3, maxIndex := 5, flags := ⟨7⟩, copyTableSize := 8, totalFieldCount := 2,
    commonDataSize := 5, headerEnd := 56 }

def fullLayout : Layout where
  shared := [⟨.fieldInfo, 56, 4⟩, ⟨.commonData, 114, 5⟩]
  sections :=
    [⟨0, 2, [⟨.records, 60, 8⟩, ⟨.offsetMap, 68, 18⟩, ⟨.relationshipTable, 86, 12⟩,
      ⟨.indexTable, 98, 8⟩, ⟨.copyTable, 106, 8⟩]⟩]

theorem plan_isExact_fullHeader :
    plan fullHeader = .ok fullLayout ∧ fullHeader.IsPlannable ∧ fullLayout.IsExact fullHeader := by
  have hplan : plan fullHeader = .ok fullLayout := by decide +kernel
  obtain ⟨-, hiff, -, hexact⟩ := plan_isExact (h := fullHeader) (by decide)
  exact ⟨hplan, hiff.mp ⟨_, hplan⟩, hexact _ hplan⟩

end Layout

end ClientTable
