import ClientTable.Proofs.Outcomes
import ClientTable.Proofs.Placement
import ClientTable.Proofs.SectionItems

/-!
Sections that have moved. Where the bytes of every segment are found in another file a distance
later, a section opens there with the same tables, and its rows stand that distance later.
-/

namespace ClientTable

open Attempt

/-- Wherever the first reading succeeds, the second does, with a related result. -/
abbrev Reading.Follows {α β : Type} (S : α → β → Prop) (m : Reading α) (n : Reading β) : Prop :=
  Attempt.Follows (fun _ _ => True) S m n

theorem Reading.Follows.exists_outcome {α β : Type} {S : α → β → Prop} {m : Reading α}
    {n : Reading β} (h : Reading.Follows S m n) {a : α} (ha : m.outcome = .ok a) :
    ∃ b, n.outcome = .ok b ∧ S a b := by
  obtain ⟨count, hm⟩ := exists_on_of_outcome ha
  obtain ⟨b, after, hn, hab, _⟩ := h 0 0 a count trivial hm
  exact ⟨b, congrArg Prod.fst hn, hab⟩

theorem Reading.Follows.outcome_eq {α : Type} {m n : Reading α} (h : Reading.Follows Eq m n) {a : α}
    (ha : m.outcome = .ok a) : n.outcome = .ok a := by
  obtain ⟨b, hb, rfl⟩ := h.exists_outcome ha
  exact hb

def Segment.move (distance : Nat) (s : Segment) : Segment :=
  { s with start := s.start + distance }

variable {distance : Nat}

theorem Segment.stop_move (s : Segment) : (s.move distance).stop = s.stop + distance := by
  exact Nat.add_right_comm s.start distance s.length

theorem Segment.find?_map_move (kind : SegmentKind) (segments : List Segment) :
    Segment.find? kind (segments.map (move distance)) =
      (Segment.find? kind segments).map (move distance) := by
  unfold Segment.find?
  rw [List.find?_map]
  rfl

/-- A section whose segments stand later. -/
structure SectionLayout.Moved (distance : Nat) (s t : SectionLayout) : Prop where
  recordCount : t.recordCount = s.recordCount
  segments : t.segments = s.segments.map (Segment.move distance)

theorem SectionLayout.Moved.find? {s t : SectionLayout} (h : s.Moved distance t)
    (kind : SegmentKind) : t.find? kind = (s.find? kind).map (Segment.move distance) := by
  unfold SectionLayout.find?
  rw [h.segments, Segment.find?_map_move]

namespace Source

/-- The bytes of a segment are found in another file a distance later. -/
def Carries (distance : Nat) (source target : Source) (s : Segment) : Prop :=
  target.found (s.start + distance) s.length = source.found s.start s.length

instance (distance : Nat) (source target : Source) (s : Segment) :
    Decidable (source.Carries distance target s) :=
  inferInstanceAs (Decidable (_ = _))

variable {source target : Source} {s : Segment}

theorem Carries.block (h : source.Carries distance target s) {bytes : Bytes}
    (hblock : source.block s.start s.length = .ok bytes) :
    target.block (s.start + distance) s.length = .ok bytes := by
  obtain ⟨hlength, rfl⟩ := block_eq_ok_iff.mp hblock
  exact block_eq_ok_iff.mpr ⟨hlength, h.symm⟩

theorem found_part (source : Source) {start size offset length : Nat}
    (hinside : offset + length ≤ size) :
    source.found (start + offset) length =
      ((source.found start size).drop offset).take length := by
  unfold found
  rw [suffix_add, List.drop_take, List.take_take, Nat.min_eq_left (by omega)]

theorem Carries.part (h : source.Carries distance target s) {offset length : Nat}
    (hinside : offset + length ≤ s.length) :
    source.Carries distance target ⟨s.kind, s.start + offset, length⟩ := by
  have hstart : s.start + offset + distance = s.start + distance + offset := by omega
  unfold Carries at h ⊢
  dsimp only
  rw [hstart, found_part target hinside, found_part source hinside, h]

theorem Carries.follows_readSegment (h : source.Carries distance target s) :
    Reading.Follows Eq (source.readSegment s) (target.readSegment (s.move distance)) := by
  intro count count' bytes after _ hread
  have hblock : source.block s.start s.length = .ok bytes := congrArg Prod.fst hread
  exact ⟨bytes, _, Prod.ext (h.block hblock) rfl, rfl, trivial⟩

end Source

section

open Source (Carries)

variable {source target : Source} {s : Segment}

theorem StringTable.follows_read (h : source.Carries distance target s) (intern : Bool) :
    Reading.Follows Eq (read source s intern) (read target (s.move distance) intern) :=
  h.follows_readSegment.bind_eq fun _ => follows_pure rfl

theorem IndexTable.follows_read (h : source.Carries distance target s) (recordCount : UInt32) :
    Reading.Follows Eq (read source s recordCount) (read target (s.move distance) recordCount) := by
  refine (respects_lift _).follows.bind_eq fun count => ?_
  dsimp only
  split
  · exact (respects_throw_bind _ _).follows
  · exact h.follows_readSegment.bind_eq fun _ => (respects_lift _).follows.bind_eq fun _ =>
      follows_pure rfl

theorem CopyTable.follows_read (h : source.Carries distance target s) :
    Reading.Follows Eq (read source s) (read target (s.move distance)) :=
  (respects_lift _).follows.bind_eq fun _ => h.follows_readSegment.bind_eq fun _ =>
    (respects_lift _).follows.bind_eq fun _ => follows_pure rfl

theorem RelationshipTable.follows_read (h : source.Carries distance target s)
    (signature : Signature) :
    Reading.Follows Eq (read source s signature) (read target (s.move distance) signature) := by
  refine h.follows_readSegment.bind_eq fun block => ?_
  cases signature <;> exact (respects_lift _).follows

theorem PalletTable.follows_read (h : source.Carries distance target s) :
    Reading.Follows Eq (read source s) (read target (s.move distance)) :=
  h.follows_readSegment.bind_eq fun _ => follows_pure rfl

end

def Row.move (distance : Nat) (row : Row) : Row :=
  { row with offset := row.offset + distance }

theorem RowCursor.rows_fixed_move (start stride count : Nat) :
    (fixed (start + distance) stride count 0).rows =
      (fixed start stride count 0).rows.map (Row.move distance) := by
  simp only [rows, List.map_map]
  refine List.map_congr_left fun index _ => ?_
  simp only [Function.comp, Row.move, Row.mk.injEq, true_and, and_true]
  omega

namespace Section

/-- A section that stands later. Its tables are the same. -/
structure Moved (distance : Nat) (s t : Section) : Prop where
  rows : t.rows.rows = s.rows.rows.map (Row.move distance)
  isVariable : t.isVariable = s.isVariable
  hasRelativeStrings : t.hasRelativeStrings = s.hasRelativeStrings
  strings : t.strings = s.strings
  stringBlockStart : t.stringBlockStart = s.stringBlockStart + distance
  keys : t.keys = s.keys
  copies : t.copies = s.copies
  relationships : t.relationships = s.relationships

variable {source target : Source} {layout layout' : SectionLayout}

theorem follows_readStrings (hmoved : layout.Moved distance layout')
    (hcarries : ∀ s ∈ layout.segments, source.Carries distance target s) (records : Segment)
    (intern : Bool) :
    Reading.Follows (fun a b => b = (a.1, a.2 + distance))
      (readStrings source layout records intern)
      (readStrings target layout' (records.move distance) intern) := by
  unfold readStrings
  rw [hmoved.find?]
  cases hfind : layout.find? .stringBlock with
  | none =>
      refine follows_pure ?_
      rw [Segment.stop_move]
  | some segment =>
      exact (StringTable.follows_read (hcarries segment (List.mem_of_find?_eq_some hfind))
        intern).bind_eq fun _ => follows_pure rfl

theorem follows_readKeys (hmoved : layout.Moved distance layout')
    (hcarries : ∀ s ∈ layout.segments, source.Carries distance target s) :
    Reading.Follows Eq (readKeys source layout) (readKeys target layout') := by
  unfold readKeys
  rw [hmoved.find?, hmoved.recordCount]
  cases hfind : layout.find? .indexTable with
  | none => exact follows_pure rfl
  | some segment =>
      exact (IndexTable.follows_read (hcarries segment (List.mem_of_find?_eq_some hfind))
        _).bind_eq fun _ => follows_pure rfl

theorem follows_readCopies (hmoved : layout.Moved distance layout')
    (hcarries : ∀ s ∈ layout.segments, source.Carries distance target s) :
    Reading.Follows Eq (readCopies source layout) (readCopies target layout') := by
  unfold readCopies
  rw [hmoved.find?]
  cases hfind : layout.find? .copyTable with
  | none => exact follows_pure rfl
  | some segment =>
      exact CopyTable.follows_read (hcarries segment (List.mem_of_find?_eq_some hfind))

theorem follows_readRelationships {h h' : Header} (hsignature : h'.signature = h.signature)
    (hmoved : layout.Moved distance layout')
    (hcarries : ∀ s ∈ layout.segments, source.Carries distance target s) :
    Reading.Follows Eq (readRelationships source h layout)
      (readRelationships target h' layout') := by
  unfold readRelationships
  rw [hmoved.find?, hsignature]
  cases hfind : layout.find? .relationshipTable with
  | none => exact follows_pure rfl
  | some segment =>
      exact (RelationshipTable.follows_read (hcarries segment (List.mem_of_find?_eq_some hfind))
        _).bind_eq fun _ => follows_pure rfl

/-- A section without an offset map opens wherever it stands. -/
theorem follows_read {h h' : Header} (hfixed : h.hasOffsetMap = false)
    (hflags : h'.flags = h.flags) (hsize : h'.recordSize = h.recordSize)
    (hsignature : h'.signature = h.signature) (hmoved : layout.Moved distance layout')
    (hcarries : ∀ s ∈ layout.segments, source.Carries distance target s) (intern : Bool) :
    Reading.Follows (Moved distance) (read source h layout intern)
      (read target h' layout' intern) := by
  have hfixed' : h'.hasOffsetMap = false := by
    unfold Header.hasOffsetMap at hfixed ⊢
    rw [hflags, hfixed]
  have harea : (layout'.segments.find? fun s => s.kind = .records) =
      (layout.segments.find? fun s => s.kind = .records).map (Segment.move distance) := by
    rw [hmoved.segments, List.find?_map]
    rfl
  unfold read
  rw [harea]
  cases layout.segments.find? fun s => s.kind = .records with
  | none => exact follows_throw _ _
  | some records =>
      refine (follows_readStrings hmoved hcarries records intern).bind ?_
      rintro ⟨strings, stringBlockStart⟩ _ rfl
      have hrows : Reading.Follows (fun a b => b.rows = a.rows.map (Row.move distance))
          (readRows source h layout records)
          (readRows target h' layout' (records.move distance)) := by
        unfold readRows
        rw [hfixed, hfixed', hsize, hmoved.recordCount]
        exact follows_pure (RowCursor.rows_fixed_move ..)
      refine hrows.bind fun rows rows' hrows => ?_
      refine (follows_readKeys hmoved hcarries).bind_eq fun keys => ?_
      refine (follows_readCopies hmoved hcarries).bind_eq fun copies => ?_
      refine (follows_readRelationships hsignature hmoved hcarries).bind_eq fun relationships => ?_
      refine follows_pure ⟨hrows, ?_, ?_, rfl, rfl, rfl, rfl, rfl⟩
      · exact hfixed'.trans hfixed.symm
      · dsimp only
        rw [hsignature]

end Section

end ClientTable
