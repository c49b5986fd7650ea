import ClientTable.Proofs.MachineRows
import ClientTable.Proofs.PlannedLayout

namespace ClientTable

open Attempt

theorem zero_lt_wordLimit : 0 < wordLimit := by
  decide

theorem one_lt_wordLimit : 1 < wordLimit := by
  decide

/-- A length that is no longer than 64 bits, and slots of at most eight bytes. -/
def Extent.IsBounded : Extent → Prop
  | bytes count => count < positionLimit
  | upTo _ => True
  | perId size => size ≤ 8

/-- No more than a word for every 32-bit number. -/
def Extent.IsShort (extent : Extent) : Prop :=
  ∃ count < 4 * wordLimit, extent = bytes count

namespace Layout

variable {h : Header}

theorem mul_toNat_lt (a b : UInt32) : a.toNat * b.toNat < positionLimit := by
  have hmul : a.toNat * b.toNat ≤ (wordLimit - 1) * (wordLimit - 1) :=
    Nat.mul_le_mul (Nat.le_pred_of_lt a.toNat_lt) (Nat.le_pred_of_lt b.toNat_lt)
  rw [wordLimit] at hmul
  rw [positionLimit]
  omega

theorem isBounded_sized (kind : SegmentKind) (size : UInt32) : (sized kind size).2.IsBounded :=
  Nat.lt_trans size.toNat_lt (by decide)

theorem isBounded_words (kind : SegmentKind) (count : UInt32) :
    (words kind count).2.IsBounded :=
  mul_toNat_lt count 4

theorem isBounded_recordArea (h : Header) (recordCount offsetMap : UInt32) :
    (recordArea h recordCount offsetMap).2.IsBounded := by
  unfold recordArea
  dsimp only
  split
  · trivial
  · exact mul_toNat_lt recordCount h.recordSize

theorem isBounded_stringsOrOffsets (h : Header) (size : UInt32) :
    (stringsOrOffsets h size).2.IsBounded := by
  unfold stringsOrOffsets
  split
  · show 6 ≤ 8
    decide
  · exact isBounded_sized _ _

/-- What is asked for has a length below 64 bits, what serves all sections has four bytes for every
32-bit number at the most, records of one size are as many as there are, and the length of a copy
table is a word. -/
structure AsksFor (h : Header) (count : UInt32) (requests : List Request) : Prop where
  extents : ∀ request ∈ requests, request.2.IsBounded
  shared : ∀ request ∈ requests, request.1.isShared = true → request.2.IsShort
  area : h.hasOffsetMap = false → ∀ extent, (.records, extent) ∈ requests →
    extent = .bytes (count.toNat * h.recordSize.toNat)
  copies : ∀ extent, (.copyTable, extent) ∈ requests →
    ∃ size : UInt32, extent = .bytes size.toNat

theorem isShort_sized (kind : SegmentKind) (size : UInt32) : (sized kind size).2.IsShort :=
  ⟨_, Nat.lt_trans size.toNat_lt (by decide), rfl⟩

theorem isShort_words (kind : SegmentKind) (count : UInt32) : (words kind count).2.IsShort := by
  have hcount : count.toNat < wordLimit := count.toNat_lt
  exact ⟨_, by omega, rfl⟩

theorem isShared_recordArea (h : Header) (recordCount offsetMap : UInt32) :
    (recordArea h recordCount offsetMap).1.isShared = false :=
  rfl

theorem isShared_stringsOrOffsets (h : Header) (size : UInt32) :
    (stringsOrOffsets h size).1.isShared = false := by
  unfold stringsOrOffsets
  split <;> rfl

theorem asksFor_simpleRequests (h : Header) : AsksFor h h.recordCount (simpleRequests h) := by
  have hlookup : (Extent.perId 6).IsBounded := by
    show 6 ≤ 8
    decide
  have harea : (Extent.bytes (h.recordCount.toNat * h.recordSize.toNat)).IsBounded :=
    mul_toNat_lt _ _
  unfold simpleRequests
  constructor
  · split <;> simp [hlookup, harea, isBounded_sized]
  · split <;> simp [sized, SegmentKind.isShared]
  · intro _ extent hextent
    unfold sized at hextent
    split at hextent <;> simpa using hextent
  · intro extent hextent
    unfold sized at hextent
    split at hextent <;> simp at hextent

theorem asksFor_flaggedRequests (h : Header) : AsksFor h h.recordCount (flaggedRequests h) := by
  have hforeign : (Extent.perId 4).IsBounded := by
    show 4 ≤ 8
    decide
  unfold flaggedRequests
  constructor
  · split <;> split <;> split <;>
      simp [hforeign, isBounded_sized, isBounded_words, isBounded_recordArea,
        isBounded_stringsOrOffsets]
  · have hforeignKeys : SegmentKind.relationshipTable.isShared = false := rfl
    split <;> split <;> split <;>
      simp [isShort_sized, isShort_words, isShared_recordArea, isShared_stringsOrOffsets,
        hforeignKeys]
  · intro hfixed extent hextent
    unfold words recordArea stringsOrOffsets sized at hextent
    rw [hfixed, if_neg Bool.false_ne_true, if_neg Bool.false_ne_true] at hextent
    split at hextent <;> split at hextent <;> split at hextent <;> simpa using hextent
  · intro extent hextent
    have hcopies : extent = .bytes h.copyTableSize.toNat := by
      unfold words recordArea stringsOrOffsets sized at hextent
      split at hextent <;> split at hextent <;> split at hextent <;> split at hextent <;>
        simpa using hextent
    exact ⟨_, hcopies⟩

theorem asksFor_storedRequests (h : Header) : AsksFor h h.recordCount (storedRequests h) := by
  unfold storedRequests
  constructor
  · simp [isBounded_sized, isBounded_words, isBounded_recordArea, isBounded_stringsOrOffsets]
  · simp [isShort_sized, isShort_words, isShared_recordArea, isShared_stringsOrOffsets]
  · intro hfixed extent hextent
    unfold words recordArea stringsOrOffsets sized at hextent
    rw [hfixed, if_neg Bool.false_ne_true, if_neg Bool.false_ne_true] at hextent
    simpa using hextent
  · intro extent hextent
    have hcopies : extent = .bytes h.copyTableSize.toNat := by
      unfold words recordArea stringsOrOffsets sized at hextent
      split at hextent <;> simpa using hextent
    exact ⟨_, hcopies⟩

theorem asksFor_sectionRequests (h : Header) (s : SectionHeader) :
    AsksFor h s.recordCount (sectionRequests h s) := by
  unfold sectionRequests
  constructor
  · simp [isBounded_sized, isBounded_recordArea, isBounded_stringsOrOffsets]
  · simp [isShort_sized, isShared_recordArea, isShared_stringsOrOffsets]
  · intro hfixed extent hextent
    unfold recordArea stringsOrOffsets sized at hextent
    rw [hfixed, if_neg Bool.false_ne_true, if_neg Bool.false_ne_true] at hextent
    simpa using hextent
  · intro extent hextent
    have hcopies : extent = .bytes s.copyTableSize.toNat := by
      unfold recordArea stringsOrOffsets sized at hextent
      split at hextent <;> simpa using hextent
    exact ⟨_, hcopies⟩

theorem isBounded_sharedRequests (h : Header) :
    ∀ request ∈ sharedRequests h, request.2.IsBounded ∧ request.2.IsShort := by
  unfold sharedRequests
  simp [isBounded_sized, isBounded_words, isShort_sized, isShort_words]

/-- A placed segment ends below 64 bits and is as long as the one that was asked for. -/
theorem mem_place {start : Nat} {requests : List Request} {segments : List Segment}
    (hplace : place h start requests = .ok segments) : ∀ s ∈ segments,
      s.stop < positionLimit ∧
        ∃ extent, (s.kind, extent) ∈ requests ∧ extent.length h s.start = .ok s.length := by
  induction requests generalizing start segments with
  | nil =>
      cases hplace
      exact nofun
  | cons request requests ih =>
      obtain ⟨kind, extent⟩ := request
      obtain ⟨length, hlength, hplace⟩ := bind_eq_ok.mp hplace
      dsimp only at hplace
      split at hplace
      case isTrue => cases hplace
      case isFalse hlimit =>
        obtain ⟨rest, hrest, hplace⟩ := bind_eq_ok.mp hplace
        cases hplace
        refine List.forall_mem_cons.mpr ⟨⟨Nat.not_le.mp hlimit, ?_⟩, fun s hs => ?_⟩
        · exact ⟨extent, List.mem_cons_self .., hlength⟩
        · obtain ⟨hstop, extent, hrequest, hlength⟩ := ih hrest s hs
          exact ⟨hstop, extent, List.mem_cons_of_mem _ hrequest, hlength⟩

end Layout

/-- The segments of a section end below 64 bits, records of one size fill their area, and the length
of a copy table is a word. -/
structure SectionLayout.IsBounded (h : Header) (layout : SectionLayout) : Prop where
  segments : ∀ s ∈ layout.segments, s.stop < positionLimit
  area : h.hasOffsetMap = false → ∀ s ∈ layout.segments, s.kind = .records →
    s.length = layout.recordCount.toNat * h.recordSize.toNat
  copies : ∀ s ∈ layout.segments, s.kind = .copyTable → s.length < wordLimit

theorem SectionLayout.IsBounded.length_of_copyTable {h : Header} {layout : SectionLayout}
    (hlayout : layout.IsBounded h) {segment : Segment}
    (hfound : layout.find? .copyTable = some segment) : segment.length < wordLimit := by
  have hkind := List.find?_some hfound
  simp only [Bool.and_eq_true, decide_eq_true_eq] at hkind
  exact hlayout.copies segment (List.mem_of_find?_eq_some hfound) hkind.1

structure Layout.IsBounded (h : Header) (layout : Layout) : Prop where
  shared : ∀ s ∈ layout.shared, s.stop < positionLimit ∧ s.length < 4 * wordLimit
  sections : ∀ s ∈ layout.sections, s.IsBounded h
  count : layout.sections.length ≤ h.sectionCount

namespace Layout

variable {h : Header}

theorem isBounded_of_place {start index : Nat} {count : UInt32} {requests : List Request}
    {segments : List Segment} (hplace : place h start requests = .ok segments)
    (hrequests : AsksFor h count requests) :
    SectionLayout.IsBounded h ⟨index, count, segments⟩ := by
  refine ⟨fun s hs => (mem_place hplace s hs).1, fun hfixed s hs hkind => ?_,
    fun s hs hkind => ?_⟩
  all_goals
    obtain ⟨_, extent, hrequest, hlength⟩ := mem_place hplace s hs
    rw [hkind] at hrequest
  · rw [hrequests.area hfixed extent hrequest] at hlength
    exact (Except.ok.inj hlength).symm
  · obtain ⟨size, rfl⟩ := hrequests.copies extent hrequest
    rw [← Except.ok.inj hlength]
    exact size.toNat_lt

theorem length_of_isShort {extent : Extent} (hshort : extent.IsShort) {start length : Nat}
    (hlength : extent.length h start = .ok length) : length < 4 * wordLimit := by
  obtain ⟨count, hcount, rfl⟩ := hshort
  cases hlength
  exact hcount

theorem isBounded_of_chain {requests : List Request} {layout : Layout}
    (hplan : (do return ofChain h (← place h h.headerEnd requests) : Except Error Layout) =
      .ok layout) (hrequests : AsksFor h h.recordCount requests) : layout.IsBounded h := by
  obtain ⟨segments, hplace, hlayout⟩ := bind_eq_ok.mp hplan
  cases hlayout
  obtain ⟨hsegments, harea, hcopies⟩ := @isBounded_of_place h _ 0 _ _ _ hplace hrequests
  have hkept {s : Segment} {keep : Segment → Bool} (hs : s ∈ segments.filter keep) :
      s ∈ segments :=
    (List.mem_filter.mp hs).1
  refine ⟨fun s hs => ?_, fun layout hlayout => ?_, Nat.le_max_right ..⟩
  · obtain ⟨hstop, extent, hrequest, hlength⟩ := mem_place hplace s (hkept hs)
    exact ⟨hstop, length_of_isShort
      (hrequests.shared _ hrequest (List.mem_filter.mp hs).2) hlength⟩
  · obtain rfl := List.mem_singleton.mp hlayout
    exact ⟨fun s hs => hsegments s (hkept hs), fun hfixed s hs => harea hfixed s (hkept hs),
      fun s hs => hcopies s (hkept hs)⟩

theorem isBounded_of_planSections {index : Nat} {headers : List SectionHeader}
    {sections : List SectionLayout} (hplan : planSections h index headers = .ok sections) :
    ∀ s ∈ sections, s.IsBounded h := by
  induction headers generalizing index sections with
  | nil =>
      cases hplan
      exact nofun
  | cons header headers ih =>
      obtain ⟨first, hfirst, hplan⟩ := bind_eq_ok.mp hplan
      obtain ⟨others, hothers, hplan⟩ := bind_eq_ok.mp hplan
      obtain ⟨segments, hplace, hfirst⟩ := bind_eq_ok.mp hfirst
      cases hplan
      cases hfirst
      exact List.forall_mem_cons.mpr
        ⟨isBounded_of_place hplace (asksFor_sectionRequests h header), ih hothers⟩

theorem isBounded_of_plan {layout : Layout} (hplan : plan h = .ok layout) :
    layout.IsBounded h := by
  unfold plan at hplan
  cases hs : h.signature with
  | wdbc | wdb2 =>
      rw [hs] at hplan
      exact isBounded_of_chain hplan (asksFor_simpleRequests h)
  | wdb3 | wdb4 =>
      rw [hs] at hplan
      cases hplan
  | wdb5 | wdb6 =>
      rw [hs] at hplan
      exact isBounded_of_chain hplan (asksFor_flaggedRequests h)
  | wdc1 =>
      rw [hs] at hplan
      exact isBounded_of_chain hplan (asksFor_storedRequests h)
  | wdc2 =>
      rw [hs] at hplan
      obtain ⟨shared, hshared, hplan⟩ := bind_eq_ok.mp hplan
      obtain ⟨sections, hsections, hplan⟩ := bind_eq_ok.mp hplan
      cases hplan
      have hlength := congrArg List.length (recordCount_of_planSections hsections)
      rw [List.length_map, List.length_map] at hlength
      refine ⟨fun s hs => ?_, isBounded_of_planSections hsections, ?_⟩
      · obtain ⟨hstop, extent, hrequest, hlength⟩ := mem_place hshared s hs
        exact ⟨hstop, length_of_isShort (isBounded_sharedRequests h _ hrequest).2 hlength⟩
      · exact Nat.le_trans (Nat.le_of_eq hlength) (Nat.le_max_left ..)

end Layout

namespace Header

def HasFewSections (h : Header) : Prop :=
  h.sections.length < wordLimit

theorem hasFewSections_basic (signature : Signature) (recordCount fieldCount recordSize
    stringTableSize : UInt32) :
    (basic signature recordCount fieldCount recordSize stringTableSize).HasFewSections :=
  zero_lt_wordLimit

theorem ensures_parseExtension_hasFewSections {h : Header} (hfew : h.HasFewSections) :
    Ensures h.parseExtension HasFewSections := by
  have flagged : Ensures h.parseFlagged HasFewSections := by
    iterate 8 refine ensures_bind fun _ => ?_
    exact ensures_pure hfew
  unfold parseExtension
  cases h.signature with
  | wdbc => exact ensures_pure hfew
  | wdb2 =>
      iterate 7 refine ensures_bind fun _ => ?_
      exact ensures_pure hfew
  | wdb3 | wdb4 => exact ensures_throw _
  | wdb5 => exact flagged
  | wdb6 =>
      refine flagged.bind fun extended hfew => ?_
      iterate 2 refine ensures_bind fun _ => ?_
      exact ensures_pure hfew
  | wdc1 =>
      refine flagged.bind fun extended hfew => ?_
      iterate 9 refine ensures_bind fun _ => ?_
      exact ensures_pure hfew
  | wdc2 =>
      iterate 13 refine ensures_bind fun _ => ?_
      refine ensures_bind fun sectionCount => ?_
      refine (Parse.ensures_many _ sectionCount.toNat).bind fun sections hlength => ?_
      dsimp only
      split
      · exact ensures_throw_bind _ _
      · refine ensures_pure ?_
        rw [HasFewSections, hlength]
        exact sectionCount.toNat_lt

theorem ensures_parse_hasFewSections (signature : Signature) :
    Ensures (parse signature) fun header => ∀ h, header = some h → h.HasFewSections := by
  unfold parse
  split
  · exact ensures_throw_bind _ _
  · refine ensures_bind fun recordCount => ?_
    split
    · exact ensures_pure nofun
    · iterate 3 refine ensures_bind fun _ => ?_
      refine (ensures_parseExtension_hasFewSections (hasFewSections_basic ..)).bind fun h hfew =>
        ensures_bind fun headerEnd => ensures_pure ?_
      rintro _ ⟨⟩
      unfold HasFewSections withTotalFieldCount
      split <;> exact hfew

end Header

end ClientTable
