import ClientTable.Proofs.Failures
import ClientTable.Proofs.SchemaPrefix

namespace ClientTable

open Attempt

/-- A section has a record area, and an offset map just if the records vary in length. -/
structure SectionLayout.IsComplete (h : Header) (layout : SectionLayout) : Prop where
  area : ∃ area, (layout.segments.find? fun s => s.kind = .records) = some area
  offsetMap : h.hasOffsetMap = true → ∃ segment, layout.find? .offsetMap = some segment
  noOffsetMap : h.hasOffsetMap = false → layout.find? .offsetMap = none

namespace Layout

variable {h : Header}

/-- A segment that is asked for is placed. -/
theorem exists_of_place {start : Nat} {requests : List Request} {segments : List Segment}
    (hplace : place h start requests = .ok segments) {kind : SegmentKind} {extent : Extent}
    (hrequest : (kind, extent) ∈ requests) :
    ∃ s ∈ segments, s.kind = kind ∧ extent.length h s.start = .ok s.length := by
  induction requests generalizing start segments with
  | nil => cases hrequest
  | cons request requests ih =>
      obtain ⟨firstKind, firstExtent⟩ := request
      obtain ⟨length, hlength, hplace⟩ := bind_eq_ok.mp hplace
      dsimp only at hplace
      split at hplace
      case isTrue => cases hplace
      case isFalse =>
        obtain ⟨rest, hrest, hplace⟩ := bind_eq_ok.mp hplace
        cases hplace
        rcases List.mem_cons.mp hrequest with hfirst | hlater
        · cases hfirst
          exact ⟨_, List.mem_cons_self .., rfl, hlength⟩
        · obtain ⟨s, hs, hkind, hlength⟩ := ih hrest hlater
          exact ⟨s, List.mem_cons_of_mem _ hs, hkind, hlength⟩

theorem exists_of_plan_flagged (hsignature : h.signature = .wdb5 ∨ h.signature = .wdb6)
    {layout : Layout} (hplan : plan h = .ok layout) :
    ∃ segments, place h h.headerEnd (flaggedRequests h) = .ok segments ∧
      ofChain h segments = layout := by
  unfold plan at hplan
  rcases hsignature with hsignature | hsignature <;> rw [hsignature] at hplan
  all_goals
    obtain ⟨segments, hplace, hlayout⟩ := bind_eq_ok.mp hplan
    exact ⟨segments, hplace, Except.ok.inj hlayout⟩

theorem isPresent_of_perId {s : Segment} {size : Nat} (hsize : 0 < size)
    (h : (Extent.perId size).length h s.start = .ok s.length) : s.isPresent = true := by
  obtain ⟨count, hcount, hlength⟩ := bind_eq_ok.mp h
  unfold Extent.idCount at hcount
  split at hcount
  case isTrue => cases hcount
  case isFalse =>
    cases hcount
    have hlength : (_ + 1) * size = s.length := Except.ok.inj hlength
    rw [Segment.isPresent, ← hlength]
    exact decide_eq_true (Nat.mul_pos (Nat.succ_pos _) hsize)

/-- What is asked for in a section: a record area, and an offset map just if the records vary in
length. -/
structure Suffices (h : Header) (requests : List Request) : Prop where
  area : ∃ extent, (.records, extent) ∈ requests
  offsetMap : h.hasOffsetMap = true → (.offsetMap, .perId 6) ∈ requests
  noOffsetMap : h.hasOffsetMap = false → SegmentKind.offsetMap ∉ requests.map Prod.fst

theorem isComplete_of_place {start index : Nat} {count : UInt32} {requests : List Request}
    {segments : List Segment} (hplace : place h start requests = .ok segments)
    (hrequests : Suffices h requests) (keep : SegmentKind → Bool)
    (hkeep : ∀ kind, kind.isShared = false → keep kind = true) :
    SectionLayout.IsComplete h ⟨index, count, segments.filter fun s => keep s.kind⟩ := by
  have hkept {s : Segment} (hs : s ∈ segments) (hkind : s.kind.isShared = false) :
      s ∈ segments.filter fun s => keep s.kind :=
    List.mem_filter.mpr ⟨hs, hkeep s.kind hkind⟩
  refine ⟨?_, ?_, fun hoffset => ?_⟩
  · obtain ⟨extent, hrequest⟩ := hrequests.area
    obtain ⟨s, hs, hkind, _⟩ := exists_of_place hplace hrequest
    apply Option.isSome_iff_exists.mp
    rw [List.find?_isSome]
    exact ⟨s, hkept hs (by rw [hkind]; rfl), decide_eq_true hkind⟩
  · intro hoffset
    obtain ⟨s, hs, hkind, hlength⟩ := exists_of_place hplace (hrequests.offsetMap hoffset)
    apply Option.isSome_iff_exists.mp
    unfold SectionLayout.find? Segment.find?
    rw [List.find?_isSome]
    refine ⟨s, hkept hs (by rw [hkind]; rfl), ?_⟩
    rw [isPresent_of_perId (by decide) hlength, decide_eq_true hkind]
    rfl
  · refine Segment.find?_of_not_mem fun hmem => ?_
    obtain ⟨s, hs, hkind⟩ := List.mem_map.mp hmem
    apply hrequests.noOffsetMap hoffset
    rw [← map_kind_of_place hplace]
    exact List.mem_map.mpr ⟨s, (List.mem_filter.mp hs).1, hkind⟩

theorem isComplete_of_chain {requests : List Request} {layout : Layout}
    (hplan : (do return ofChain h (← place h h.headerEnd requests) : Except Error Layout) =
      .ok layout) (hrequests : Suffices h requests) : ∀ s ∈ layout.sections, s.IsComplete h := by
  obtain ⟨segments, hplace, hlayout⟩ := bind_eq_ok.mp hplan
  cases hlayout
  intro s hs
  obtain rfl := List.mem_singleton.mp hs
  exact isComplete_of_place hplace hrequests (fun kind => !kind.isShared)
    fun kind hkind => by rw [hkind]; rfl

theorem isComplete_of_planSections {index : Nat} {headers : List SectionHeader}
    {sections : List SectionLayout} (hplan : planSections h index headers = .ok sections) :
    ∀ s ∈ sections, s.IsComplete h := by
  induction headers generalizing index sections with
  | nil =>
      cases hplan
      exact nofun
  | cons header headers ih =>
      obtain ⟨first, hfirst, hplan⟩ := bind_eq_ok.mp hplan
      obtain ⟨others, hothers, hplan⟩ := bind_eq_ok.mp hplan
      obtain ⟨segments, hplace, hfirst⟩ := bind_eq_ok.mp hfirst
      cases hplan
      cases hfirst
      have hrequests : Suffices h (sectionRequests h header) := by
        refine ⟨⟨_, List.mem_cons_self ..⟩, fun hmap => ?_, fun hmap => ?_⟩
        · simp [sectionRequests, stringsOrOffsets, hmap]
        · simp [sectionRequests, stringsOrOffsets, recordArea, sized, hmap]
      have hfirst := @isComplete_of_place h _ index header.recordCount _ _ hplace hrequests
        (fun _ => true) fun _ _ => rfl
      rw [List.filter_true] at hfirst
      exact List.forall_mem_cons.mpr ⟨hfirst, ih hothers⟩

/-- The sections of a file that can be planned are complete. -/
theorem isComplete_of_plan (hreadable : h.IsReadable) {layout : Layout}
    (hplan : plan h = .ok layout) : ∀ s ∈ layout.sections, s.IsComplete h := by
  unfold plan at hplan
  have simple (hinfo : h.signature.hasFieldInfo = false) : Suffices h (simpleRequests h) := by
    refine ⟨⟨_, List.mem_append_right _ (List.mem_cons_self ..)⟩, fun hmap => ?_, fun _ => ?_⟩
    · rw [Header.hasOffsetMap, hreadable.unflagged hinfo] at hmap
      cases hmap
    · unfold simpleRequests sized
      split <;> simp
  have flagged : Suffices h (flaggedRequests h) := by
    refine ⟨⟨(recordArea h h.recordCount h.stringTableSize).2, ?_⟩, fun hmap => ?_, fun hmap => ?_⟩
    · simp [flaggedRequests, recordArea]
    · simp [flaggedRequests, stringsOrOffsets, hmap]
    · unfold flaggedRequests words recordArea stringsOrOffsets sized
      rw [hmap, if_neg Bool.false_ne_true, if_neg Bool.false_ne_true]
      split <;> split <;> split <;> simp
  have stored : Suffices h (storedRequests h) := by
    refine ⟨⟨_, List.mem_cons_of_mem _ (List.mem_cons_self ..)⟩, fun hmap => ?_, fun hmap => ?_⟩
    · simp [storedRequests, stringsOrOffsets, hmap]
    · simp [storedRequests, stringsOrOffsets, words, recordArea, sized, hmap]
  cases hs : h.signature with
  | wdbc =>
      rw [hs] at hplan
      exact isComplete_of_chain hplan (simple (by rw [hs]; rfl))
  | wdb2 =>
      rw [hs] at hplan
      exact isComplete_of_chain hplan (simple (by rw [hs]; rfl))
  | wdb3 =>
      rw [hs] at hplan
      cases hplan
  | wdb4 =>
      rw [hs] at hplan
      cases hplan
  | wdb5 =>
      rw [hs] at hplan
      exact isComplete_of_chain hplan flagged
  | wdb6 =>
      rw [hs] at hplan
      exact isComplete_of_chain hplan flagged
  | wdc1 =>
      rw [hs] at hplan
      exact isComplete_of_chain hplan stored
  | wdc2 =>
      rw [hs] at hplan
      obtain ⟨shared, _, hplan⟩ := bind_eq_ok.mp hplan
      obtain ⟨sections, hsections, hplan⟩ := bind_eq_ok.mp hplan
      cases hplan
      exact isComplete_of_planSections hsections

end Layout

/-- The sections of an open file are complete. -/
def Metadata.IsComplete (m : Metadata) : Prop :=
  ∀ h, m.header = some h → ∀ layout ∈ m.layout.sections, layout.IsComplete h

theorem Metadata.ensures_isComplete (source : Source) (schema : Schema) :
    Ensures (Metadata.read source schema) IsComplete := by
  refine (ensures_isRead source schema).mono fun m hm => ?_
  cases hm with
  | empty signature => exact nofun
  | populated hstart hplan _ _ =>
      rintro _ ⟨⟩
      exact Layout.isComplete_of_plan (hstart.of_ensures ensures_isReadable_parseStart _ rfl) hplan

end ClientTable
