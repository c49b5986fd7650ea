import ClientTable.Proofs.Attempt
import ClientTable.Proofs.Writing
import ClientTable.Layout
import ClientTable.Source

/-!
Files that are written block after block. The planned segments of such a file stand back to back,
and each of them is read as the block that was written there.
-/

namespace ClientTable

namespace Source

variable {s : Source} {start : Nat} {xs ys bytes : Bytes}

/-- The bytes stand in the file at `start`. -/
def Holds (s : Source) (start : Nat) (bytes : Bytes) : Prop :=
  bytes <+: s.suffix start

theorem Holds.left (h : s.Holds start (xs ++ ys)) : s.Holds start xs :=
  (List.prefix_append xs ys).trans h

theorem suffix_add (s : Source) (start count : Nat) :
    s.suffix (start + count) = (s.suffix start).drop count := by
  cases s with
  | stream bytes origin => simp only [suffix, List.drop_drop, Nat.add_assoc]
  | memory bytes => simp only [suffix, List.drop_drop]

theorem Holds.right (h : s.Holds start (xs ++ ys)) : s.Holds (start + xs.length) ys := by
  obtain ⟨rest, hrest⟩ := h
  refine ⟨rest, ?_⟩
  rw [suffix_add, ← hrest, List.append_assoc, List.drop_left]

theorem Holds.block (h : s.Holds start bytes) : s.block start bytes.length = .ok bytes := by
  obtain ⟨rest, hrest⟩ := h
  refine block_eq_ok_iff.mpr ⟨rfl, ?_⟩
  unfold found
  rw [← hrest, List.take_left]

theorem Holds.gives_readSegment {segment : Segment} (h : s.Holds segment.start bytes)
    (hlength : segment.length = bytes.length) :
    Attempt.Gives (fun _ => True) (s.readSegment segment) bytes := by
  intro count _
  unfold readSegment
  rw [hlength, on_readBlock]
  exact ⟨h.block, trivial⟩

theorem Holds.gives_parse {α : Type} {item : Parse α} {a : α} (h : s.Holds 0 bytes)
    (hread : item.Reads 0 bytes a) : Attempt.Gives (fun _ => True) (s.parse item) a := by
  intro count _
  obtain ⟨rest, hrest⟩ := h
  rw [on_parse, ← hrest, Input.ofBytes, hread rest]
  exact ⟨rfl, trivial⟩

end Source

namespace Layout

/-- Blocks of bytes with their roles. -/
abbrev Piece := SegmentKind × Bytes

def pieceBytes (pieces : List Piece) : Bytes :=
  pieces.flatMap Prod.snd

def backToBack : (start : Nat) → List Piece → List Segment
  | _, [] => []
  | start, (kind, bytes) :: pieces =>
    ⟨kind, start, bytes.length⟩ :: backToBack (start + bytes.length) pieces

/-- The request for a piece whose length is known. -/
def request (piece : Piece) : Request :=
  (piece.1, .bytes piece.2.length)

/-- The requests are for the pieces: every segment reaches as far as the bytes of its piece. -/
def Asks (h : Header) : (start : Nat) → List Request → List Piece → Prop
  | _, [], [] => True
  | start, (kind, extent) :: requests, (role, bytes) :: pieces =>
    kind = role ∧ extent.length h start = .ok bytes.length ∧
      Asks h (start + bytes.length) requests pieces
  | _, _, _ => False

theorem asks_request (h : Header) (start : Nat) (pieces : List Piece) :
    Asks h start (pieces.map request) pieces := by
  induction pieces generalizing start with
  | nil => trivial
  | cons piece pieces ih => exact ⟨rfl, rfl, ih _⟩

theorem place_of_asks {h : Header} {start : Nat} {requests : List Request} {pieces : List Piece}
    (hasks : Asks h start requests pieces)
    (hfits : start + (pieceBytes pieces).length < positionLimit) :
    place h start requests = .ok (backToBack start pieces) := by
  induction pieces generalizing start requests with
  | nil =>
      cases requests with
      | nil => rfl
      | cons request requests => exact hasks.elim
  | cons piece pieces ih =>
      cases requests with
      | nil => exact hasks.elim
      | cons request requests =>
          obtain ⟨kind, bytes⟩ := piece
          obtain ⟨_, extent⟩ := request
          obtain ⟨rfl, hlength, hasks⟩ := hasks
          have hrest : start + bytes.length + (pieceBytes pieces).length < positionLimit := by
            simp only [pieceBytes, List.flatMap_cons, List.length_append] at hfits ⊢
            omega
          have hnear : ¬ positionLimit ≤ start + bytes.length := by omega
          rw [place, hlength]
          change (if positionLimit ≤ start + bytes.length then throw _ else _) = _
          rw [if_neg hnear, ih hasks hrest]
          rfl

theorem place_pieces (h : Header) {start : Nat} {pieces : List Piece}
    (hfits : start + (pieceBytes pieces).length < positionLimit) :
    place h start (pieces.map request) = .ok (backToBack start pieces) :=
  place_of_asks (asks_request h start pieces) hfits

theorem map_kind_backToBack (start : Nat) (pieces : List Piece) :
    (backToBack start pieces).map Segment.kind = pieces.map Prod.fst := by
  induction pieces generalizing start with
  | nil => rfl
  | cons piece pieces ih =>
      rw [backToBack, List.map_cons, List.map_cons, ih]

theorem exists_find?_backToBack {source : Source} {start : Nat} {pieces : List Piece}
    (hholds : source.Holds start (pieceBytes pieces)) (hkinds : (pieces.map Prod.fst).Nodup)
    {kind : SegmentKind} {bytes : Bytes} (hmem : (kind, bytes) ∈ pieces) :
    ∃ segment, (backToBack start pieces).find? (fun s => s.kind = kind) = some segment ∧
      segment.length = bytes.length ∧ source.Holds segment.start bytes := by
  induction pieces generalizing start with
  | nil => cases hmem
  | cons piece pieces ih =>
      obtain ⟨first, firstBytes⟩ := piece
      obtain ⟨hfresh, hrest⟩ := List.nodup_cons.mp hkinds
      rcases List.mem_cons.mp hmem with heq | hmem
      · cases heq
        exact ⟨_, List.find?_cons_of_pos (by simp), rfl, hholds.left⟩
      · have hother : first ≠ kind := by
          rintro rfl
          exact hfresh (List.mem_map.mpr ⟨_, hmem, rfl⟩)
        obtain ⟨segment, hfind, hsegment⟩ := ih hholds.right hrest hmem
        refine ⟨segment, ?_, hsegment⟩
        rw [backToBack, List.find?_cons_of_neg (by simpa using hother), hfind]

end Layout

theorem Segment.find?_of_not_mem {kind : SegmentKind} {segments : List Segment}
    (habsent : kind ∉ segments.map Segment.kind) : Segment.find? kind segments = none := by
  refine List.find?_eq_none.mpr fun segment hsegment => ?_
  have hother : segment.kind ≠ kind := by
    rintro rfl
    exact habsent (List.mem_map_of_mem hsegment)
  simp [hother]

theorem Segment.find?_eq_filter {segments : List Segment}
    (hkinds : (segments.map Segment.kind).Nodup) (kind : SegmentKind) :
    Segment.find? kind segments =
      (segments.find? fun s => s.kind = kind).filter Segment.isPresent := by
  induction segments with
  | nil => rfl
  | cons segment segments ih =>
      obtain ⟨hfresh, hrest⟩ := List.nodup_cons.mp hkinds
      have hfind := ih hrest
      unfold Segment.find? at hfind ⊢
      by_cases hkind : segment.kind = kind
      · have hnone : segments.find? (fun s => s.kind = kind && s.isPresent) = none := by
          refine List.find?_eq_none.mpr fun other hother => ?_
          have hdiffers : other.kind ≠ kind := by
            intro hsame
            exact hfresh (List.mem_map.mpr ⟨other, hother, hsame.trans hkind.symm⟩)
          simp [hdiffers]
        cases hpresent : segment.isPresent <;> simp [hkind, hpresent, hnone, Option.filter]
      · simp [hkind, hfind]

theorem Segment.find?_filter {kind : SegmentKind} (keep : SegmentKind → Bool)
    (h : keep kind = true) (segments : List Segment) :
    Segment.find? kind (segments.filter fun s => keep s.kind) = Segment.find? kind segments := by
  unfold Segment.find?
  rw [List.find?_filter]
  congr 1
  funext segment
  by_cases hkind : segment.kind = kind
  · simp [hkind, h]
  · simp [hkind]

/-- What has been found of a role is where its bytes stand; nothing is found if there are none. -/
def Source.Finds (source : Source) (found : Option Segment) (bytes : Bytes) : Prop :=
  match found with
  | none => bytes = []
  | some segment =>
    bytes ≠ [] ∧ segment.length = bytes.length ∧ source.Holds segment.start bytes

theorem Layout.finds_backToBack {source : Source} {start : Nat} {pieces : List Piece}
    (hholds : source.Holds start (pieceBytes pieces)) (hkinds : (pieces.map Prod.fst).Nodup)
    {kind : SegmentKind} {bytes : Bytes} (hmem : (kind, bytes) ∈ pieces) :
    source.Finds (Segment.find? kind (backToBack start pieces)) bytes := by
  obtain ⟨segment, hfind, hlength, hsegment⟩ := exists_find?_backToBack hholds hkinds hmem
  rw [← map_kind_backToBack start] at hkinds
  rw [Segment.find?_eq_filter hkinds, hfind]
  cases hpresent : segment.isPresent with
  | true =>
      rw [Option.filter_some_pos hpresent]
      have hpositive : 0 < segment.length := of_decide_eq_true hpresent
      refine ⟨?_, hlength, hsegment⟩
      rintro rfl
      rw [hlength] at hpositive
      exact Nat.lt_irrefl 0 hpositive
  | false =>
      rw [Option.filter_some_neg (by simp [hpresent])]
      have hzero : ¬ 0 < segment.length := by simpa [Segment.isPresent] using hpresent
      exact List.eq_nil_of_length_eq_zero (by omega)

namespace Layout

variable {source : Source} {h : Header} {start : Nat} {pieces : List Piece}

def chainSection (h : Header) (segments : List Segment) : SectionLayout :=
  ⟨0, h.recordCount, segments.filter fun s => !s.kind.isShared⟩

theorem finds_shared (hholds : source.Holds start (pieceBytes pieces))
    (hkinds : (pieces.map Prod.fst).Nodup) {kind : SegmentKind} (hshared : kind.isShared = true)
    {bytes : Bytes} (hmem : (kind, bytes) ∈ pieces) :
    source.Finds ((ofChain h (backToBack start pieces)).findShared? kind) bytes := by
  have hfind := Segment.find?_filter SegmentKind.isShared hshared (backToBack start pieces)
  change source.Finds (Segment.find? kind ((backToBack start pieces).filter fun s =>
    s.kind.isShared)) bytes
  rw [hfind]
  exact finds_backToBack hholds hkinds hmem

theorem finds_chainSection (hholds : source.Holds start (pieceBytes pieces))
    (hkinds : (pieces.map Prod.fst).Nodup) {kind : SegmentKind}
    (hshared : kind.isShared = false) {bytes : Bytes} (hmem : (kind, bytes) ∈ pieces) :
    source.Finds ((chainSection h (backToBack start pieces)).find? kind) bytes := by
  have hkeep : (!kind.isShared) = true := by
    rw [hshared]
    rfl
  have hfind := Segment.find?_filter (fun kind => !kind.isShared) hkeep (backToBack start pieces)
  change source.Finds (Segment.find? kind ((backToBack start pieces).filter fun s =>
    !s.kind.isShared)) bytes
  rw [hfind]
  exact finds_backToBack hholds hkinds hmem

theorem find?_backToBack_of_not_mem {kind : SegmentKind} (habsent : kind ∉ pieces.map Prod.fst) :
    Segment.find? kind (backToBack start pieces) = none := by
  rw [← map_kind_backToBack start] at habsent
  exact Segment.find?_of_not_mem habsent

theorem findShared?_of_not_mem {kind : SegmentKind} (hshared : kind.isShared = true)
    (habsent : kind ∉ pieces.map Prod.fst) :
    (ofChain h (backToBack start pieces)).findShared? kind = none := by
  have hfind := Segment.find?_filter SegmentKind.isShared hshared (backToBack start pieces)
  exact hfind.trans (find?_backToBack_of_not_mem habsent)

theorem find?_chainSection_of_not_mem {kind : SegmentKind} (hshared : kind.isShared = false)
    (habsent : kind ∉ pieces.map Prod.fst) :
    (chainSection h (backToBack start pieces)).find? kind = none := by
  have hkeep : (!kind.isShared) = true := by
    rw [hshared]
    rfl
  have hfind := Segment.find?_filter (fun kind => !kind.isShared) hkeep (backToBack start pieces)
  exact hfind.trans (find?_backToBack_of_not_mem habsent)

theorem exists_records (hholds : source.Holds start (pieceBytes pieces))
    (hkinds : (pieces.map Prod.fst).Nodup) {bytes : Bytes}
    (hmem : (SegmentKind.records, bytes) ∈ pieces) :
    ∃ records, (chainSection h (backToBack start pieces)).segments.find?
        (fun s => s.kind = .records) = some records ∧
      records.length = bytes.length ∧ source.Holds records.start bytes := by
  obtain ⟨records, hfind, hrecords⟩ := exists_find?_backToBack hholds hkinds hmem
  refine ⟨records, ?_, hrecords⟩
  rw [← hfind, chainSection, List.find?_filter]
  congr 1
  funext segment
  by_cases hkind : segment.kind = .records
  · simp [hkind, SegmentKind.isShared]
  · simp [hkind]

end Layout

end ClientTable
