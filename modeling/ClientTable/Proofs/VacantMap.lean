import ClientTable.Proofs.VacantSection

namespace ClientTable

open Attempt

namespace Parse

theorem on_number_of_le {width : Nat} {input : Input} (h : width ≤ input.rest.length) :
    (number width).on input = (.ok (littleEndian (input.rest.take width)),
      ⟨input.rest.drop width, input.position + width⟩) :=
  Attempt.on_bind_of_ok (on_take_of_le h)

theorem on_u16_of_le {input : Input} (h : 2 ≤ input.rest.length) :
    u16.on input = (.ok (UInt16.ofNat (littleEndian (input.rest.take 2))),
      ⟨input.rest.drop 2, input.position + 2⟩) :=
  Attempt.on_bind_of_ok (on_number_of_le h)

theorem on_u32_of_le {input : Input} (h : 4 ≤ input.rest.length) :
    u32.on input = (.ok (UInt32.ofNat (littleEndian (input.rest.take 4))),
      ⟨input.rest.drop 4, input.position + 4⟩) :=
  Attempt.on_bind_of_ok (on_number_of_le h)

theorem on_u32_eq_ok {input : Input} {word : UInt32} (h : (u32.on input).1 = .ok word) :
    4 ≤ input.rest.length ∧ word.toNat = littleEndian (input.rest.take 4) := by
  rcases Nat.lt_or_ge input.rest.length 4 with hlt | hle
  · have htake := on_take_of_lt hlt
    rw [u32, number, Attempt.on_bind_of_error (Attempt.on_bind_of_error htake)] at h
    cases h
  · rw [on_u32_of_le hle] at h
    cases h
    have hlimit := littleEndian_lt (input.rest.take 4)
    rw [List.length_take, Nat.min_eq_left hle] at hlimit
    exact ⟨hle, toNat_ofNat_of_lt hlimit⟩

theorem exists_of_decode_many {α : Type} {item : Parse α} {count : Nat} {bytes : Bytes}
    {items : List α} (h : decode (many item (count + 1)) bytes = .ok items) :
    ∃ first others, (item.on (.ofBytes bytes)).1 = .ok first ∧ items = first :: others := by
  obtain ⟨after, hrun⟩ : ∃ after, (many item (count + 1)).on (.ofBytes bytes) =
      (.ok items, after) := ⟨_, Prod.ext h rfl⟩
  obtain ⟨first, _, hfirst, hrun⟩ := on_bind_eq_ok.mp hrun
  obtain ⟨others, _, _, hrun⟩ := on_bind_eq_ok.mp hrun
  cases hrun
  exact ⟨first, others, by rw [hfirst], rfl⟩

end Parse

namespace RowLocation

theorem on_parse_of_le {bytes : Bytes} (h : 6 ≤ bytes.length) :
    (parse.on (.ofBytes bytes)).1 = .ok ⟨UInt32.ofNat (littleEndian (bytes.take 4)),
      UInt16.ofNat (littleEndian ((bytes.drop 4).take 2))⟩ := by
  have hoffset : 4 ≤ (Input.ofBytes bytes).rest.length := by
    change 4 ≤ bytes.length
    omega
  have hlength : 2 ≤ (Input.mk (bytes.drop 4) 4).rest.length := by
    simp only [List.length_drop]
    omega
  unfold parse
  rw [Attempt.on_bind_of_ok (Parse.on_u32_of_le hoffset)]
  exact congrArg Prod.fst (Attempt.on_bind_of_ok (Parse.on_u16_of_le hlength))

variable {source : Source} {h : Header}

/-- An offset map at the start of a file has a used slot, except where the low half of the number of
records is zero. -/
theorem recordCount_of_head (hstart : source.StartsWith h) {kind : SegmentKind} {count : Nat}
    (hcount : 0 < count) (hlocated : LocatedBy source ⟨kind, 0, count * entrySize⟩ []) :
    h.recordCount.toNat % 65536 = 0 := by
  obtain ⟨block, slots, hblock, hslots, hnone⟩ := hlocated
  obtain ⟨hlength, hfound⟩ := Source.block_eq_ok_iff.mp hblock
  dsimp only at hlength hfound hslots
  obtain ⟨more, rfl⟩ : ∃ more, count = more + 1 := ⟨count - 1, by omega⟩
  have hsize : 6 ≤ block.length := by
    rw [hlength, Nat.succ_mul]
    exact Nat.le_add_left 6 _
  rw [Nat.mul_div_cancel _ (by decide : 0 < entrySize)] at hslots
  obtain ⟨first, others, hfirst, rfl⟩ := Parse.exists_of_decode_many hslots
  rw [on_parse_of_le hsize] at hfirst
  cases hfirst
  obtain ⟨hrest, hrecords⟩ := Parse.on_u32_eq_ok hstart.recordCount
  dsimp only at hrest hrecords
  -- The first slot is made of the signature and the low half of the number of records.
  have hmagic : block.take 4 = Signature.wdc2.magic := by
    rw [hfound, Source.found, List.take_take, Nat.min_eq_left (by omega), hstart.magic]
  have hhalf : (block.drop 4).take 2 = (source.suffix 4).take 2 := by
    rw [hfound, Source.found, List.drop_take, List.take_take, ← Source.suffix_add,
      Nat.zero_add, Nat.min_eq_left (by omega)]
  have hunused : ¬ isUsed ⟨UInt32.ofNat (littleEndian (block.take 4)),
      UInt16.ofNat (littleEndian ((block.drop 4).take 2))⟩ = true := by
    intro hused
    rw [List.filter_cons_of_pos hused] at hnone
    cases hnone
  rw [hmagic, hhalf] at hunused
  have hzero : UInt16.ofNat (littleEndian ((source.suffix 4).take 2)) = 0 := by
    have hoffset : UInt32.ofNat (littleEndian Signature.wdc2.magic) ≠ 0 := by decide
    simpa [isUsed, hoffset] using hunused
  have hlow : littleEndian ((source.suffix 4).take 2) = 0 := by
    have hlimit := littleEndian_lt ((source.suffix 4).take 2)
    rw [List.length_take, Nat.min_eq_left (by omega)] at hlimit
    have htoNat := congrArg UInt16.toNat hzero
    rw [UInt16.toNat_ofNat_of_lt' hlimit] at htoNat
    exact htoNat
  have hword : (source.suffix 4).take 4 =
      (source.suffix 4).take 2 ++ ((source.suffix 4).drop 2).take 2 := by
    rw [← List.take_add]
  rw [hrecords, hword, littleEndian_append, hlow, List.length_take, Nat.min_eq_left (by omega)]
  omega

end RowLocation

namespace Layout

variable {h : Header}

theorem exists_of_planSections {headers : List SectionHeader} {index : Nat}
    {layouts : List SectionLayout} (hplan : planSections h index headers = .ok layouts)
    {s : SectionHeader} (hs : s ∈ headers) :
    ∃ index, ∃ layout ∈ layouts, planSection h index s = .ok layout := by
  induction headers generalizing index layouts with
  | nil => cases hs
  | cons first headers ih =>
      obtain ⟨layout, hfirst, hplan⟩ := bind_eq_ok.mp hplan
      obtain ⟨others, hothers, hplan⟩ := bind_eq_ok.mp hplan
      cases hplan
      rcases List.mem_cons.mp hs with rfl | hs
      · exact ⟨index, layout, List.mem_cons_self .., hfirst⟩
      · obtain ⟨index, layout, hlayout, hother⟩ := ih hothers hs
        exact ⟨index, layout, List.mem_cons_of_mem _ hlayout, hother⟩

/-- A vacant section with an offset map can only be planned at the start of the file. -/
theorem vacant_of_planSection (hlocated : h.hasOffsetMap = true) {s : SectionHeader}
    (hvacant : s.Vacant) {index : Nat} {layout : SectionLayout}
    (hplan : planSection h index s = .ok layout) :
    s.fileOffset = 0 ∧ layout.recordCount = 0 ∧ ∃ count, 0 < count ∧
      layout.find? .offsetMap = some ⟨.offsetMap, 0, count * RowLocation.entrySize⟩ := by
  obtain ⟨segments, hplace, hplan⟩ := bind_eq_ok.mp hplan
  cases hplan
  unfold sectionRequests recordArea stringsOrOffsets at hplace
  rw [hlocated, hvacant.offsetMapOffset] at hplace
  obtain ⟨length, hlength, hplace⟩ := bind_eq_ok.mp hplace
  change (if 0 < s.fileOffset.toNat then throw _ else return 0 - s.fileOffset.toNat) = _ at hlength
  -- The record area reaches from the start of the section to the offset map, which is at 0.
  split at hlength
  case isTrue => cases hlength
  case isFalse hstart =>
    have hzero : s.fileOffset.toNat = 0 := by omega
    cases hlength
    rw [hzero] at hplace
    obtain ⟨rest, hrest, hplace⟩ := bind_eq_ok.mp hplace
    cases hplace
    obtain ⟨slots, hslots, hrest⟩ := bind_eq_ok.mp hrest
    obtain ⟨count, hcount, hslots⟩ := bind_eq_ok.mp hslots
    cases hslots
    have hpositive : 0 < count := by
      unfold Extent.idCount at hcount
      split at hcount
      · cases hcount
      · cases hcount
        omega
    dsimp only at hrest
    split at hrest
    case isTrue => cases hrest
    case isFalse =>
      obtain ⟨others, _, hrest⟩ := bind_eq_ok.mp hrest
      cases hrest
      refine ⟨UInt32.toNat_inj.mp hzero, hvacant.recordCount, count, hpositive, ?_⟩
      have hpresent : (Segment.mk .offsetMap 0 (count * 6)).isPresent = true :=
        decide_eq_true (Nat.mul_pos hpositive (by decide))
      unfold SectionLayout.find? Segment.find?
      rw [List.find?_cons_of_neg (by simp), List.find?_cons_of_pos (by simpa using hpresent)]
      rfl

end Layout

/-- A vacant section with an offset map leads to an error, unless it starts with the file and the
low half of the number of records is zero. -/
theorem Records.vacant_of_listed {source : Source} {m : Metadata} {h : Header} {intern : Bool}
    {items : List Item} (hlocated : h.hasOffsetMap = true) (hstart : source.StartsWith h)
    (hheader : m.header = some h) (hplan : Layout.plan h = .ok m.layout) {vacant : SectionHeader}
    (hvacant : vacant.Vacant) (hmem : vacant ∈ h.sections)
    (hlisted : listed source m intern = .ok items) (herror : ∀ e, .error e ∉ items) :
    vacant.fileOffset = 0 ∧ h.recordCount.toNat % 65536 = 0 := by
  obtain ⟨_, hsections⟩ := (Layout.plan_eq_ok hstart.signature).mp hplan
  obtain ⟨index, layout, hlayout, hsection⟩ := Layout.exists_of_planSections hsections hmem
  obtain ⟨hzero, hnone, count, hcount, hmap⟩ :=
    Layout.vacant_of_planSection hlocated hvacant hsection
  refine ⟨hzero, ?_⟩
  obtain ⟨shared, _, rfl⟩ := exists_of_listed hheader hlisted herror
  cases hread : (Section.read source h layout intern).outcome with
  | error e =>
      refine absurd (List.mem_flatMap.mpr ⟨layout, hlayout, ?_⟩) (herror e)
      unfold sectionItems fresh
      rw [hread]
      exact List.mem_singleton_self _
  | ok s =>
      have hfresh := Section.ensures_read source h layout intern 0 s hread
      obtain ⟨segment, used, hsegment, hused, hlength, _⟩ := hfresh.located hlocated
      rw [hmap] at hsegment
      cases hsegment
      rw [hnone] at hlength
      obtain rfl : used = [] := List.eq_nil_of_length_eq_zero hlength
      exact RowLocation.recordCount_of_head hstart hcount hused

end ClientTable
