import ClientTable.Proofs.Attempt
import ClientTable.Reader

/-!
Which bytes a reading looks at. A reading draws byte ranges from a source if it has just these bytes
handed out, each as often as its range is listed, and gives out the same from every other source
that holds the same bytes there. Opening a file draws its header and the descriptions of its fields;
opening a section draws its tables.
-/

namespace ClientTable

/-- A byte range of a file. -/
structure Span where
  start : Nat
  length : Nat
  deriving DecidableEq, Repr

/-- The number of bytes in ranges, where those of overlapping ranges count twice. -/
def Span.size (spans : List Span) : Nat :=
  total (spans.map Span.length)

@[simp]
theorem Span.size_nil : Span.size [] = 0 :=
  rfl

@[simp]
theorem Span.size_append (xs ys : List Span) :
    Span.size (xs ++ ys) = Span.size xs + Span.size ys := by
  simp only [Span.size, List.map_append, total_append]

def Segment.span (s : Segment) : Span :=
  ⟨s.start, s.length⟩

/-- Both sources hold the same bytes in the ranges. -/
def Source.Agrees (s t : Source) (spans : List Span) : Prop :=
  ∀ span ∈ spans, t.found span.start span.length = s.found span.start span.length

theorem Source.agrees_append {s t : Source} {xs ys : List Span} :
    s.Agrees t (xs ++ ys) ↔ s.Agrees t xs ∧ s.Agrees t ys :=
  List.forall_mem_append

theorem Source.agrees_self (s : Source) (spans : List Span) : s.Agrees s spans :=
  fun _ _ => rfl

@[simp]
theorem Source.cost_zero (s : Source) : s.cost 0 = 0 := by
  cases s <;> rfl

theorem Source.cost_add (s : Source) (m n : Nat) : s.cost (m + n) = s.cost m + s.cost n := by
  cases s <;> rfl

namespace Reading

variable {α β : Type} {s : Source}

/-- From every source that agrees with `s` on the ranges the reading gives out `a`, and has the
bytes of the ranges handed out. -/
def Draws (s : Source) (f : Source → Reading α) (a : α) (spans : List Span) : Prop :=
  ∀ t, s.Agrees t spans → ∀ count,
    (f t).on count = (.ok a, count + t.cost (Span.size spans))

theorem draws_pure (a : α) : Draws s (fun _ => pure a) a [] := by
  intro t _ count
  rw [Span.size_nil, Source.cost_zero, Nat.add_zero]
  rfl

theorem Draws.bind {f : Source → Reading α} {g : Source → α → Reading β} {a : α} {b : β}
    {xs ys : List Span} (hf : Draws s f a xs) (hg : Draws s (fun t => g t a) b ys) :
    Draws s (fun t => f t >>= g t) b (xs ++ ys) := by
  intro t hagrees count
  obtain ⟨hxs, hys⟩ := Source.agrees_append.mp hagrees
  rw [Attempt.on_bind_of_ok (hf t hxs count), hg t hys, Span.size_append, Source.cost_add,
    Nat.add_assoc]

theorem Draws.on_eq {f : Source → Reading α} {a : α} {spans : List Span}
    (h : Draws s f a spans) (count : Nat) :
    (f s).on count = (.ok a, count + s.cost (Span.size spans)) :=
  h s (s.agrees_self spans) count

/-- Wherever the reading succeeds, it draws the ranges. -/
def Uses (f : Source → Reading α) (spans : List Span) : Prop :=
  ∀ s count a after, (f s).on count = (.ok a, after) → Draws s f a spans

theorem uses_lift (x : Except Error α) : Uses (fun _ => liftM x) [] := by
  intro s count a after h
  obtain ⟨rfl, _⟩ := Attempt.on_lift_eq_ok h
  exact draws_pure a

theorem uses_pure (a : α) : Uses (fun _ => pure a) [] :=
  uses_lift (.ok a)

theorem uses_throw (e : Error) (spans : List Span) :
    Uses (fun _ => (throw e : Reading α)) spans := by
  intro s count a after h
  cases h

theorem uses_throw_bind (e : Error) (f : Source → α → Reading β) (spans : List Span) :
    Uses (fun s => (throw e : Reading α) >>= f s) spans := by
  intro s count a after h
  cases h

theorem Uses.bind {f : Source → Reading α} {g : Source → α → Reading β} {xs ys : List Span}
    (hf : Uses f xs) (hg : ∀ a, Uses (fun s => g s a) ys) :
    Uses (fun s => f s >>= g s) (xs ++ ys) := by
  intro s count b after h
  obtain ⟨a, middle, ha, hb⟩ := Attempt.on_bind_eq_ok.mp h
  exact (hf s count a middle ha).bind (hg a s middle b after hb)

theorem Uses.bind_nil {f : Source → Reading α} {g : Source → α → Reading β} {xs : List Span}
    (hf : Uses f xs) (hg : ∀ a, Uses (fun s => g s a) []) : Uses (fun s => f s >>= g s) xs := by
  simpa using hf.bind hg

theorem Uses.nil_bind {f : Source → Reading α} {g : Source → α → Reading β} {ys : List Span}
    (hf : Uses f []) (hg : ∀ a, Uses (fun s => g s a) ys) : Uses (fun s => f s >>= g s) ys := by
  simpa using hf.bind hg

theorem uses_readSegment (segment : Segment) :
    Uses (fun s => s.readSegment segment) [segment.span] := by
  intro s count bytes after h t hagrees count'
  have hblock : s.block segment.start segment.length = .ok bytes := congrArg Prod.fst h
  obtain ⟨hlength, hbytes⟩ := Source.block_eq_ok_iff.mp hblock
  have hfound : t.found segment.start segment.length = bytes :=
    (hagrees segment.span (List.mem_singleton_self _)).trans hbytes.symm
  have hsame : t.block segment.start segment.length = .ok bytes :=
    Source.block_eq_ok_iff.mpr ⟨hlength, hfound.symm⟩
  change (t.readBlock segment.start segment.length).on count' = _
  rw [Source.on_readBlock, hsame, hfound, hlength]
  rfl

end Reading

namespace Parse

variable {α β : Type}

/-- Where the item is read, it depends on nothing but the bytes that it takes up. -/
def Local (item : Parse α) : Prop :=
  ∀ input a after, item.on input = (.ok a, after) →
    ∃ used, input.rest = used ++ after.rest ∧ after.position = input.position + used.length ∧
      ∀ rest, item.on ⟨used ++ rest, input.position⟩ =
        (.ok a, ⟨rest, input.position + used.length⟩)

theorem local_pure (a : α) : Local (pure a) := by
  intro input b after h
  cases h
  exact ⟨[], rfl, rfl, fun _ => rfl⟩

theorem local_throw (e : Error) : Local (throw e : Parse α) := by
  intro input a after h
  cases h

theorem local_throw_bind (e : Error) (f : α → Parse β) : Local ((throw e : Parse α) >>= f) := by
  intro input a after h
  cases h

theorem local_position : Local position := by
  intro input a after h
  cases h
  exact ⟨[], rfl, rfl, fun _ => rfl⟩

theorem Local.bind {item : Parse α} {next : α → Parse β} (h : Local item)
    (hnext : ∀ a, Local (next a)) : Local (item >>= next) := by
  intro input b after hrun
  obtain ⟨a, middle, hfirst, hrun⟩ := Attempt.on_bind_eq_ok.mp hrun
  obtain ⟨xs, hxs, hmiddle, hitem⟩ := h input a middle hfirst
  obtain ⟨ys, hys, hafter, hothers⟩ := hnext a middle b after hrun
  refine ⟨xs ++ ys, ?_, ?_, fun rest => ?_⟩
  · rw [hxs, hys, List.append_assoc]
  · rw [hafter, hmiddle, List.length_append, Nat.add_assoc]
  · rw [List.append_assoc, Attempt.on_bind_of_ok (hitem (ys ++ rest)), ← hmiddle, hothers rest,
      hmiddle, List.length_append, Nat.add_assoc]

theorem local_take (count : Nat) : Local (take count) := by
  intro input bytes after h
  rcases Nat.lt_or_ge input.rest.length count with hlt | hle
  · rw [on_take_of_lt hlt] at h
    cases h
  · rw [on_take_of_le hle] at h
    cases h
    have hlength : (input.rest.take count).length = count := by
      rw [List.length_take, Nat.min_eq_left hle]
    refine ⟨input.rest.take count, (List.take_append_drop count input.rest).symm, ?_,
      fun rest => ?_⟩
    · rw [hlength]
    · rw [← on_take_append (input.rest.take count) rest input.position, hlength]

theorem local_number (width : Nat) : Local (number width) :=
  (local_take width).bind fun _ => local_pure _

theorem local_u16 : Local u16 :=
  (local_number 2).bind fun _ => local_pure _

theorem local_u32 : Local u32 :=
  (local_number 4).bind fun _ => local_pure _

theorem local_u64 : Local u64 :=
  (local_number 8).bind fun _ => local_pure _

theorem local_many {item : Parse α} (h : Local item) (count : Nat) : Local (many item count) := by
  induction count with
  | zero => exact local_pure []
  | succ count ih => exact h.bind fun first => ih.bind fun others => local_pure (first :: others)

end Parse

open Parse

theorem Signature.local_parse : Local Signature.parse := by
  refine (local_take 4).bind fun magic => ?_
  cases Signature.ofMagic? magic with
  | some signature => exact local_pure signature
  | none => exact local_throw _

theorem SectionHeader.local_parse : Local SectionHeader.parse := by
  refine local_u64.bind fun _ => ?_
  iterate 7 refine local_u32.bind fun _ => ?_
  exact local_pure _

namespace Header

theorem local_parseBuild (h : Header) : Local h.parseBuild := by
  iterate 7 refine local_u32.bind fun _ => ?_
  exact local_pure _

theorem local_parseFlagged (h : Header) : Local h.parseFlagged := by
  iterate 6 refine local_u32.bind fun _ => ?_
  exact local_u16.bind fun _ => local_u16.bind fun _ => local_pure _

theorem local_parseCommonSize (h : Header) : Local h.parseCommonSize := by
  iterate 2 refine local_u32.bind fun _ => ?_
  exact local_pure _

theorem local_parseStorageSizes (h : Header) : Local h.parseStorageSizes := by
  iterate 9 refine local_u32.bind fun _ => ?_
  exact local_pure _

theorem local_parseSectioned (h : Header) : Local h.parseSectioned := by
  iterate 5 refine local_u32.bind fun _ => ?_
  iterate 2 refine local_u16.bind fun _ => ?_
  iterate 7 refine local_u32.bind fun _ => ?_
  refine (local_many SectionHeader.local_parse _).bind fun sections => ?_
  dsimp only
  split
  · exact local_throw_bind _ _
  · exact local_pure _

theorem local_parseExtension (h : Header) : Local h.parseExtension := by
  unfold parseExtension
  cases h.signature with
  | wdbc => exact local_pure h
  | wdb2 => exact h.local_parseBuild
  | wdb3 => exact local_throw _
  | wdb4 => exact local_throw _
  | wdb5 => exact h.local_parseFlagged
  | wdb6 => exact h.local_parseFlagged.bind local_parseCommonSize
  | wdc1 => exact h.local_parseFlagged.bind local_parseStorageSizes
  | wdc2 => exact h.local_parseSectioned

theorem local_parse (signature : Signature) : Local (parse signature) := by
  unfold parse
  split
  · exact local_throw_bind _ _
  · refine local_u32.bind fun recordCount => ?_
    split
    · exact local_pure none
    · iterate 3 refine local_u32.bind fun _ => ?_
      exact (local_parseExtension _).bind fun h => local_position.bind fun headerEnd =>
        local_pure _

/-- The header knows where it ends; where there is none, the record count is the last word. -/
theorem position_of_on_parse {signature : Signature} {input after : Input} {header : Option Header}
    (h : (parse signature).on input = (.ok header, after)) :
    after.position = header.elim (input.position + 4) headerEnd := by
  unfold parse at h
  split at h
  case isTrue => cases h
  case isFalse =>
    obtain ⟨recordCount, middle, hcount, h⟩ := Attempt.on_bind_eq_ok.mp h
    split at h
    case isTrue =>
      cases h
      obtain ⟨number, last, hnumber, hcount⟩ := Attempt.on_bind_eq_ok.mp hcount
      obtain ⟨bytes, end_, hbytes, hnumber⟩ := Attempt.on_bind_eq_ok.mp hnumber
      cases hcount
      cases hnumber
      rcases Nat.lt_or_ge input.rest.length 4 with hlt | hle
      · rw [on_take_of_lt hlt] at hbytes
        cases hbytes
      · rw [on_take_of_le hle] at hbytes
        cases hbytes
        rfl
    case isFalse =>
      iterate 4 obtain ⟨_, _, _, h⟩ := Attempt.on_bind_eq_ok.mp h
      obtain ⟨headerEnd, last, hend, h⟩ := Attempt.on_bind_eq_ok.mp h
      cases hend
      cases h
      rfl

end Header

open Reading

theorem Source.draws_parse {α : Type} {item : Parse α} (hitem : Local item) {s : Source} {a : α}
    {after : Input} (h : item.on (Input.ofBytes (s.suffix 0)) = (.ok a, after)) :
    Draws s (fun t => t.parse item) a [⟨0, after.position⟩] := by
  intro t hagrees count
  obtain ⟨used, hused, hposition, hrun⟩ := hitem _ a after h
  have hlength : after.position = used.length := hposition.trans (Nat.zero_add _)
  have hfound : t.found 0 used.length = used := by
    have hsame := hagrees ⟨0, after.position⟩ (List.mem_singleton_self _)
    dsimp only at hsame
    rw [hlength] at hsame
    rw [hsame, found, show s.suffix 0 = used ++ after.rest from hused, List.take_left]
  have hsplit : t.suffix 0 = used ++ (t.suffix 0).drop used.length := by
    nth_rewrite 1 [← List.take_append_drop used.length (t.suffix 0)]
    exact congrArg (· ++ _) hfound
  have hsame : item.on (Input.ofBytes (t.suffix 0)) =
      (.ok a, ⟨(t.suffix 0).drop used.length, used.length⟩) := by
    rw [hsplit, List.drop_left]
    simpa [Input.ofBytes] using hrun ((t.suffix 0).drop used.length)
  rw [on_parse, hsame, hlength]
  simp [Span.size]

def Layout.spans (layout : Layout) (kind : SegmentKind) : List Span :=
  (layout.findShared? kind).toList.map Segment.span

def SectionLayout.spans (layout : SectionLayout) (kind : SegmentKind) : List Span :=
  (layout.find? kind).toList.map Segment.span

namespace Descriptor

theorem uses_readFieldInfos (layout : Layout) :
    Uses (fun s => readFieldInfos s layout) (layout.spans .fieldInfo) := by
  unfold readFieldInfos Layout.spans
  cases layout.findShared? .fieldInfo with
  | none => exact uses_pure []
  | some segment => exact (uses_readSegment segment).bind_nil fun _ => uses_lift _

theorem uses_readStorageInfos (layout : Layout) :
    Uses (fun s => readStorageInfos s layout) (layout.spans .fieldStorageInfo) := by
  unfold readStorageInfos Layout.spans
  cases layout.findShared? .fieldStorageInfo with
  | none => exact uses_pure []
  | some segment =>
      dsimp only
      split
      · exact uses_throw_bind _ _ _
      · exact (uses_readSegment segment).bind_nil fun _ => uses_lift _

def spans (h : Header) (layout : Layout) : List Span :=
  (if h.signature.hasFieldInfo then layout.spans .fieldInfo else []) ++
    (if h.signature.hasStorageInfo then layout.spans .fieldStorageInfo else [])

theorem uses_readColumns (h : Header) (layout : Layout) (schema : Schema) :
    Uses (fun s => readColumns s h layout schema) (spans h layout) := by
  have hinfos := uses_readFieldInfos layout
  have hstorage := uses_readStorageInfos layout
  unfold readColumns spans
  cases h.signature with
  | wdbc => exact uses_pure _
  | wdb2 => exact uses_pure _
  | wdb3 => exact uses_throw _ _
  | wdb4 => exact uses_throw _ _
  | wdb5 => exact hinfos.bind fun _ => uses_lift _
  | wdb6 =>
      exact hinfos.bind fun _ => (uses_lift _).bind_nil fun _ => (uses_lift _).bind_nil fun _ =>
        uses_pure _
  | wdc1 => exact hinfos.bind fun _ => hstorage.bind_nil fun _ => uses_lift _
  | wdc2 => exact hinfos.bind fun _ => hstorage.bind_nil fun _ => uses_lift _

theorem uses_readAll (h : Header) (layout : Layout) (schema : Schema) :
    Uses (fun s => readAll s h layout schema) (spans h layout) := by
  refine (uses_readColumns h layout schema).bind_nil fun columns => ?_
  split
  · exact (uses_lift _).bind_nil fun _ => (uses_pure _).bind_nil fun _ =>
      (uses_lift _).bind_nil fun _ => uses_pure _
  · exact (uses_pure _).bind_nil fun _ => (uses_lift _).bind_nil fun _ => uses_pure _

end Descriptor

namespace Metadata

theorem local_parseStart : Local parseStart :=
  Signature.local_parse.bind fun signature =>
    (Header.local_parse signature).bind fun header => local_pure (signature, header)

theorem position_of_on_parseStart {input after : Input} {signature : Signature}
    {header : Option Header} (h : parseStart.on input = (.ok (signature, header), after)) :
    after.position = header.elim (input.position + 8) Header.headerEnd := by
  obtain ⟨named, middle, hsignature, h⟩ := Attempt.on_bind_eq_ok.mp h
  obtain ⟨parsed, last, hheader, h⟩ := Attempt.on_bind_eq_ok.mp h
  cases h
  have hposition := Header.position_of_on_parse hheader
  cases header with
  | some header => exact hposition
  | none =>
      obtain ⟨magic, next, hmagic, hsignature⟩ := Attempt.on_bind_eq_ok.mp hsignature
      have hnext : middle = next := by
        cases hnamed : Signature.ofMagic? magic with
        | none =>
            rw [hnamed] at hsignature
            cases hsignature
        | some signature =>
            rw [hnamed] at hsignature
            cases hsignature
            rfl
      rcases Nat.lt_or_ge input.rest.length 4 with hlt | hle
      · rw [on_take_of_lt hlt] at hmagic
        cases hmagic
      · rw [on_take_of_le hle] at hmagic
        cases hmagic
        rw [hposition, hnext]

/-- The ranges that are read when a file is opened: the header and the descriptions of the fields,
or two words where there are no records. -/
def openingSpans (m : Metadata) : List Span :=
  match m.header with
  | none => [⟨0, 8⟩]
  | some h => ⟨0, h.headerEnd⟩ :: Descriptor.spans h m.layout

theorem draws_readPopulated {h : Header} {schema : Schema} {s : Source} {count after : Nat}
    {m : Metadata} (hread : (readPopulated s h schema).on count = (.ok m, after)) :
    Draws s (fun t => readPopulated t h schema) m (Descriptor.spans h m.layout) := by
  obtain ⟨layout, _, hplan, hread⟩ := Attempt.on_bind_eq_ok.mp hread
  obtain ⟨descriptors, _, hdescriptors, hread⟩ := Attempt.on_bind_eq_ok.mp hread
  obtain ⟨mappings, _, hmappings, hread⟩ := Attempt.on_bind_eq_ok.mp hread
  have hplanned := (Attempt.on_lift_eq_ok hplan).1
  have hmapped := (Attempt.on_lift_eq_ok hmappings).1
  cases hread
  intro t hagrees count
  have hsame := Descriptor.uses_readAll h layout schema s _ _ _ hdescriptors t hagrees count
  unfold readPopulated
  rw [hplanned, Attempt.on_bind_of_ok (Attempt.on_lift (.ok layout) count),
    Attempt.on_bind_of_ok hsame, hmapped]
  rfl

theorem draws_read {schema : Schema} {s : Source} {count after : Nat} {m : Metadata}
    (h : (Metadata.read s schema).on count = (.ok m, after)) :
    Draws s (fun t => Metadata.read t schema) m m.openingSpans := by
  obtain ⟨⟨signature, header⟩, middle, hstart, h⟩ := Attempt.on_bind_eq_ok.mp h
  rcases hparse : parseStart.on (Input.ofBytes (s.suffix 0)) with ⟨outcome, input⟩
  rw [Source.on_parse, hparse] at hstart
  obtain rfl : outcome = .ok (signature, header) := congrArg Prod.fst hstart
  have hposition := position_of_on_parseStart hparse
  have hdraws := Source.draws_parse local_parseStart hparse
  cases header with
  | none =>
      cases h
      rw [hposition] at hdraws
      exact hdraws.bind (draws_pure _)
  | some header =>
      rw [hposition] at hdraws
      have hrest := draws_readPopulated h
      obtain ⟨layout, _, _, h⟩ := Attempt.on_bind_eq_ok.mp h
      obtain ⟨descriptors, _, _, h⟩ := Attempt.on_bind_eq_ok.mp h
      obtain ⟨mappings, _, _, h⟩ := Attempt.on_bind_eq_ok.mp h
      cases h
      exact hdraws.bind hrest

end Metadata

section

variable (segment : Segment)

theorem RowLocation.uses_readAll (records : Segment) (recordCount : UInt32) :
    Uses (fun s => readAll s segment records recordCount) [segment.span] :=
  (uses_lift _).nil_bind fun _ => (uses_readSegment segment).bind_nil fun _ =>
    (uses_lift _).bind_nil fun _ => uses_lift _

theorem IndexTable.uses_read (recordCount : UInt32) :
    Uses (fun s => IndexTable.read s segment recordCount) [segment.span] := by
  refine (uses_lift _).nil_bind fun count => ?_
  split
  · exact uses_throw_bind _ _ _
  · exact (uses_readSegment segment).bind_nil fun _ => (uses_lift _).bind_nil fun _ => uses_pure _

theorem CopyTable.uses_read : Uses (fun s => CopyTable.read s segment) [segment.span] :=
  (uses_lift _).nil_bind fun _ => (uses_readSegment segment).bind_nil fun _ =>
    (uses_lift _).bind_nil fun _ => uses_pure _

theorem RelationshipTable.uses_read (signature : Signature) :
    Uses (fun s => RelationshipTable.read s segment signature) [segment.span] := by
  refine (uses_readSegment segment).bind_nil fun block => ?_
  cases signature <;> exact uses_lift _

theorem CommonTable.uses_read (h : Header) (descriptors : List Descriptor) :
    Uses (fun s => CommonTable.read s segment h descriptors) [segment.span] := by
  refine (uses_readSegment segment).bind_nil fun block => ?_
  split
  · exact (uses_lift _).bind_nil fun _ => uses_pure _
  · exact (uses_lift _).bind_nil fun _ => uses_pure _

end

def Layout.sharedSpans (layout : Layout) : List Span :=
  layout.spans .palletData ++ layout.spans .commonData

theorem SharedTables.uses_read {m : Metadata} {h : Header} (hheader : m.header = some h) :
    Uses (fun s => SharedTables.read s m) m.layout.sharedSpans := by
  have hpallet : Uses (fun s => readPallet s m.layout) (m.layout.spans .palletData) := by
    unfold readPallet Layout.spans
    cases m.layout.findShared? .palletData with
    | none => exact uses_pure none
    | some segment =>
        exact ((uses_readSegment segment).bind_nil fun _ => uses_pure _).bind_nil
          fun _ => uses_pure _
  have hcommon : Uses (fun s => readCommon s m h) (m.layout.spans .commonData) := by
    unfold readCommon Layout.spans
    cases m.layout.findShared? .commonData with
    | none => exact uses_pure none
    | some segment =>
        exact (CommonTable.uses_read segment h m.descriptors).bind_nil fun _ => uses_pure _
  unfold read
  rw [hheader]
  exact hpallet.bind fun _ => hcommon.bind_nil fun _ => uses_pure _

/-- The ranges of the tables of a section. -/
def SectionLayout.tableSpans (layout : SectionLayout) : List Span :=
  layout.spans .stringBlock ++ (layout.spans .offsetMap ++ (layout.spans .indexTable ++
    (layout.spans .copyTable ++ layout.spans .relationshipTable)))

namespace Section

variable (layout : SectionLayout)

theorem uses_readStrings (records : Segment) (intern : Bool) :
    Uses (fun s => readStrings s layout records intern) (layout.spans .stringBlock) := by
  unfold readStrings SectionLayout.spans
  cases layout.find? .stringBlock with
  | none => exact uses_pure _
  | some segment =>
      exact ((uses_readSegment segment).bind_nil fun _ => uses_pure _).bind_nil fun _ => uses_pure _

variable {h : Header}

theorem uses_readRows (hmap : h.hasOffsetMap = false → layout.find? .offsetMap = none)
    (records : Segment) :
    Uses (fun s => readRows s h layout records) (layout.spans .offsetMap) := by
  unfold readRows SectionLayout.spans
  cases hoffset : h.hasOffsetMap with
  | false =>
      rw [hmap hoffset]
      exact uses_pure _
  | true =>
      cases layout.find? .offsetMap with
      | none => exact uses_throw _ _
      | some segment =>
          exact (RowLocation.uses_readAll segment records layout.recordCount).bind_nil
            fun _ => uses_pure _

theorem uses_readKeys : Uses (fun s => readKeys s layout) (layout.spans .indexTable) := by
  unfold readKeys SectionLayout.spans
  cases layout.find? .indexTable with
  | none => exact uses_pure none
  | some segment =>
      exact (IndexTable.uses_read segment layout.recordCount).bind_nil fun _ => uses_pure _

theorem uses_readCopies : Uses (fun s => readCopies s layout) (layout.spans .copyTable) := by
  unfold readCopies SectionLayout.spans
  cases layout.find? .copyTable with
  | none => exact uses_pure _
  | some segment => exact CopyTable.uses_read segment

theorem uses_readRelationships (h : Header) :
    Uses (fun s => readRelationships s h layout) (layout.spans .relationshipTable) := by
  unfold readRelationships SectionLayout.spans
  cases layout.find? .relationshipTable with
  | none => exact uses_pure none
  | some segment =>
      exact (RelationshipTable.uses_read segment h.signature).bind_nil fun _ => uses_pure _

theorem uses_read (hmap : h.hasOffsetMap = false → layout.find? .offsetMap = none)
    (intern : Bool) : Uses (fun s => Section.read s h layout intern) layout.tableSpans := by
  unfold read
  cases layout.segments.find? fun segment => segment.kind = .records with
  | none => exact uses_throw _ _
  | some records =>
      exact (uses_readStrings layout records intern).bind fun _ =>
        (uses_readRows layout hmap records).bind fun _ => (uses_readKeys layout).bind fun _ =>
          (uses_readCopies layout).bind fun _ => (uses_readRelationships layout h).bind_nil
            fun _ => uses_pure _

end Section

end ClientTable
