import ClientTable.Proofs.PlannedLayout
import ClientTable.Proofs.Traces

namespace ClientTable

open Attempt

/-- The files that start at the positions of the two streams hold the same bytes in the ranges. -/
def Stream.Agrees (s t : Stream) (spans : List Span) : Prop :=
  ∀ span ∈ spans, ((t.bytes.drop t.position).drop span.start).take span.length =
    ((s.bytes.drop s.position).drop span.start).take span.length

theorem Source.found_of_ofStream {stream : Stream} {copy : Bool} {count after : Nat} {s : Source}
    (h : (ofStream stream copy).on count = (.ok s, after)) (start length : Nat) :
    s.found start length = ((stream.bytes.drop stream.position).drop start).take length := by
  unfold ofStream at h
  cases hfault : stream.seekFault with
  | some reason =>
      rw [hfault] at h
      cases h
  | none =>
      rw [hfault] at h
      cases copy with
      | true =>
          cases h
          rfl
      | false =>
          cases h
          rw [found, suffix, List.drop_drop]

theorem Source.cost_of_ofStream {stream : Stream} {count after : Nat} {s : Source}
    (h : (ofStream stream false).on count = (.ok s, after)) :
    after = count ∧ ∀ size, s.cost size = size := by
  unfold ofStream at h
  cases hfault : stream.seekFault with
  | some reason =>
      rw [hfault] at h
      cases h
  | none =>
      rw [hfault] at h
      cases h
      exact ⟨rfl, fun _ => rfl⟩

theorem Source.exists_on_ofStream {stream : Stream} (hseeks : stream.seekFault = none)
    (copy : Bool) :
    ∃ s, ∀ count, ∃ after, (ofStream stream copy).on count = (.ok s, after) := by
  unfold ofStream
  rw [hseeks]
  cases copy with
  | true => exact ⟨_, fun _ => ⟨_, rfl⟩⟩
  | false => exact ⟨_, fun _ => ⟨_, rfl⟩⟩

theorem Metadata.ensures_headerless (source : Source) (schema : Schema) :
    Ensures (Metadata.read source schema) fun m => m.header = none → m.layout = .empty := by
  refine (ensures_isRead source schema).mono fun m hm => ?_
  cases hm with
  | empty signature => exact fun _ => rfl
  | populated _ _ _ _ => exact nofun

theorem SharedTables.uses_read_of_headerless {m : Metadata}
    (hempty : m.header = none → m.layout = .empty) :
    Reading.Uses (fun s => SharedTables.read s m) m.layout.sharedSpans := by
  cases hheader : m.header with
  | some h => exact SharedTables.uses_read hheader
  | none =>
      rw [hempty hheader]
      unfold read
      rw [hheader]
      exact Reading.uses_pure _

namespace Records

/-- The ranges that the first `count` records take besides the tables that serve all sections: the
tables of the sections up to that of the last record, and the rows that the records have been read
from. -/
def ownSpans (r : Records) (count : Nat) : List Span :=
  let items := r.traced.take count
  (r.metadata.layout.sections.take (openedAfter 0 items)).flatMap SectionLayout.tableSpans ++
    items.flatMap Traced.spans

/-- The ranges that are read until the first `count` records have been given out. -/
def spans (r : Records) (count : Nat) : List Span :=
  r.metadata.layout.sharedSpans ++ r.ownSpans count

theorem exists_prefix_of_untilError {items : List Item} {count : Nat}
    (h : ∀ i < count, ∃ record, (untilError items)[i]? = some (.ok record)) :
    count ≤ items.length ∧ ∀ item ∈ items.take count, ∃ record, item = .ok record := by
  induction count generalizing items with
  | zero => exact ⟨Nat.zero_le _, by simp⟩
  | succ count ih =>
      obtain ⟨record, hfirst⟩ := h 0 (Nat.succ_pos count)
      cases items with
      | nil => cases hfirst
      | cons item items =>
          cases item with
          | error e => cases hfirst
          | ok first =>
              obtain ⟨hle, hitems⟩ := ih fun i hi => h (i + 1) (Nat.succ_lt_succ hi)
              refine ⟨Nat.succ_le_succ hle, ?_⟩
              rw [List.take_succ_cons]
              exact List.forall_mem_cons.mpr ⟨⟨first, rfl⟩, hitems⟩

variable {r : Records}

theorem Fresh.tracedLeft (fresh : r.Fresh) {h : Header} (hheader : r.metadata.header = some h) :
    r.tracedLeft h 0 = r.traced := by
  unfold Records.tracedLeft traced
  rw [fresh.current, fresh.upcoming, hheader]
  rfl

/-- Where the first polls all give out records, these are the ones that are traced, and the polls
draw what they are traced to. -/
theorem Fresh.run_polls_of_ok (fresh : r.Fresh) (hcomplete : r.metadata.IsComplete) {count : Nat}
    (h : ∀ i < count, ∃ record, r.reference[i]? = some (.ok record)) {t : Source}
    (hagrees : r.source.Agrees t (r.ownSpans count)) (start : Nat) :
    (polls count (r.readFrom t)).run start = ((r.traced.take count).map fun x => some x.item,
      start + t.cost (Span.size (r.ownSpans count))) := by
  unfold reference at h
  rw [← r.map_item_traced] at h
  obtain ⟨hle, hitems⟩ := exists_prefix_of_untilError h
  rw [List.length_map] at hle
  have hlength : (r.traced.take count).length = count := by
    rw [List.length_take, Nat.min_eq_left hle]
  cases hheader : r.metadata.header with
  | none =>
      have hnone : r.traced = [] := by
        unfold traced
        rw [hheader]
      unfold ownSpans
      rw [hnone] at hle ⊢
      obtain rfl : count = 0 := Nat.le_zero.mp hle
      change _ = (([] : List (Option Item)), start + t.cost 0)
      rw [Source.cost_zero]
      rfl
  | some h =>
      have hrunning : r.Running h := by
        refine ⟨hheader, fresh.finished, fresh.sound, ?_⟩
        rw [fresh.upcoming]
        exact fun layout hlayout => (hcomplete h hheader layout hlayout).noOffsetMap
      have hok : ∀ x ∈ r.traced.take count, ∃ record, x.item = .ok record := by
        intro x hx
        refine hitems x.item ?_
        rw [← List.map_take]
        exact List.mem_map_of_mem hx
      have htraced : r.tracedLeft h 0 = r.traced.take count ++ r.traced.drop count := by
        rw [fresh.tracedLeft hheader, List.take_append_drop]
      obtain ⟨htables, hrows⟩ := Source.agrees_append.mp hagrees
      have hrun := (run_polls_of_traced hrunning hok htraced).2 t
      rw [fresh.upcoming, hlength] at hrun
      unfold ownSpans
      rw [Span.size_append]
      exact hrun htables hrows start

/-- Going through the records from the start, from any source that agrees on what the first of them
are traced to. -/
theorem draws_of_start {source : Source} {m : Metadata} {intern : Bool} {count after limit : Nat}
    (hempty : m.header = none → m.layout = .empty) (hcomplete : m.IsComplete)
    (hstart : (start source m intern).on count = (.ok r, after))
    (hpolled : ∀ polled ∈ ((polls limit r).run after).1, ∃ record, polled = some (.ok record))
    {t : Source} (hagrees : source.Agrees t (r.spans limit)) :
    (∀ called, (start t m intern).on called =
      (.ok (r.readFrom t), called + t.cost (Span.size m.layout.sharedSpans))) ∧
      ∀ started, (polls limit (r.readFrom t)).run started =
        ((r.traced.take limit).map fun x => some x.item,
          started + t.cost (Span.size (r.ownSpans limit))) := by
  obtain ⟨fresh, _⟩ := ensures_start source m intern count r (congrArg Prod.fst hstart)
  obtain ⟨shared, middle, hread, hstart⟩ := on_bind_eq_ok.mp hstart
  cases hstart
  obtain ⟨hshared, hown⟩ := Source.agrees_append.mp hagrees
  constructor
  · intro called
    have hdraws := SharedTables.uses_read_of_headerless hempty _ _ _ _ hread t hshared called
    unfold Records.start
    rw [on_bind_of_ok hdraws]
    rfl
  · refine fresh.run_polls_of_ok hcomplete (fun i hi => ?_) hown
    rw [run_polls fresh.sound, fresh.remaining_eq] at hpolled
    exact hpolled _ (List.mem_map.mpr ⟨i, List.mem_range.mpr hi, rfl⟩)

end Records

namespace Reader

/-- A file in a stream that is not copied is read as late as possible. Opening it reads the ranges
that `openingSpans` lists, and the first polls, as long as they give out records, read those that
`spans` lists, each as often as it is listed. Another file that holds the same bytes there opens
alike and gives out the same records. -/
theorem reads_only_spans {stream : Stream} {schema : Schema} {options : Options} {reader : Reader}
    {count opened : Nat} (hstream : options.copyToMemory = false)
    (hopen : (ofStream stream schema options).on count = (.ok reader, opened)) :
    opened = count + Span.size reader.metadata.openingSpans ∧
      ∀ called records started, reader.records.on called = (.ok records, started) →
        records.traced.map Traced.item = records.itemsOf reader.metadata.layout.sections ∧
        ∀ limit,
          (∀ polled ∈ ((Records.polls limit records).run started).1,
            ∃ record, polled = some (.ok record)) →
          (Records.polls limit records).run started =
            ((records.traced.take limit).map fun x => some x.item,
              called + Span.size (records.spans limit)) ∧
          ∀ other copy, other.seekFault = none →
            stream.Agrees other (reader.metadata.openingSpans ++ records.spans limit) →
            ∃ again records', (∀ start, ((ofStream other schema
                ⟨copy, options.internStrings⟩).on start).1 = .ok again) ∧
              again.metadata = reader.metadata ∧
              (∀ start, (again.records.on start).1 = .ok records') ∧
              ∀ start, ((Records.polls limit records').run start).1 =
                ((Records.polls limit records).run started).1 := by
  obtain ⟨source, taken, hsource, hread⟩ := on_bind_eq_ok.mp hopen
  obtain ⟨m, last, hread, hreader⟩ := on_bind_eq_ok.mp hread
  cases hreader
  have hfound := Source.found_of_ofStream hsource
  rw [hstream] at hsource
  obtain ⟨rfl, hcost⟩ := Source.cost_of_ofStream hsource
  have hdraws := Metadata.draws_read hread
  have hempty := Metadata.ensures_headerless source schema _ _ (congrArg Prod.fst hread)
  have hcomplete := Metadata.ensures_isComplete source schema _ _ (congrArg Prod.fst hread)
  constructor
  · have hafter := congrArg Prod.snd (hread.symm.trans (hdraws.on_eq taken))
    dsimp only at hafter
    rw [hafter, hcost]
  intro called records started hrecords
  obtain ⟨_, hsame, hmetadata, _⟩ := Records.ensures_start source m options.internStrings called
    records (congrArg Prod.fst hrecords)
  refine ⟨hmetadata ▸ records.map_item_traced, fun limit hpolled => ?_⟩
  have hself : records.readFrom source = records := by
    rw [← hsame]
    rfl
  obtain ⟨hstart, hpolls⟩ := Records.draws_of_start hempty hcomplete hrecords hpolled
    (source.agrees_self _)
  rw [hself] at hstart hpolls
  have hstarted := congrArg Prod.snd (hrecords.symm.trans (hstart called))
  have hrun := hpolls started
  dsimp only at hstarted
  have hsize : Span.size (records.spans limit) =
      Span.size m.layout.sharedSpans + Span.size (records.ownSpans limit) := by
    rw [Records.spans, Span.size_append, hmetadata]
  constructor
  · rw [hrun, hstarted, hcost, hcost, hsize, Nat.add_assoc]
  -- What has been drawn once is drawn again from any source with the same bytes there.
  intro other copy hseeks hagrees
  obtain ⟨t, ht⟩ := Source.exists_on_ofStream hseeks copy
  have hagrees : source.Agrees t (m.openingSpans ++ records.spans limit) := by
    intro span hspan
    obtain ⟨_, ht⟩ := ht 0
    rw [hfound, Source.found_of_ofStream ht]
    exact hagrees span hspan
  obtain ⟨hopening, hlater⟩ := Source.agrees_append.mp hagrees
  obtain ⟨hstart', hpolls'⟩ :=
    Records.draws_of_start hempty hcomplete hrecords hpolled hlater
  refine ⟨⟨t, m, ⟨copy, options.internStrings⟩⟩, records.readFrom t, fun start => ?_, rfl,
    fun start => ?_, fun start => ?_⟩
  · obtain ⟨middle, ht⟩ := ht start
    unfold ofStream
    rw [on_bind_of_ok ht, on_bind_of_ok (hdraws t hopening middle)]
    rfl
  · exact congrArg Prod.fst (hstart' start)
  · rw [hpolls', hrun]

/-- A section with nothing but a string block, and one of two rows. The first row has one copy. -/
def twoSections (second : UInt32) : Bytes :=
  wordFile .wdc2 [2, 2, 8, 0, 0, 0, 0, 0, 0, 0, 2, 0, 0, 48, 0, 0, 2,
    0, 0, 200, 0, 4, 0, 0, 0, 0, 0, 0, 204, 2, 0, 8, 0, 0, 0,
    0, 0x40000, 0x200000, 0, 0, 0, 0, 0, 0x200020, 0, 0, 0, 0, 0, 97, 5, 50, 6, second, 105, 5]

def idAndValue : Schema :=
  ⟨[.scalar "id" .u32, .scalar "value" .u32]⟩

def firstTwo? (file : Bytes) : Option (List Span × List Span × Bool) := do
  let reader ← ((ofStream ⟨file, 0, none⟩ idAndValue .default).on 0).1.toOption
  let records ← (reader.records.on 0).1.toOption
  let polled := ((Records.polls 2 records).run (reader.records.on 0).2).1
  return (reader.metadata.openingSpans, records.spans 2,
    polled.all fun item => (item.bind Except.toOption).isSome)

theorem exists_of_firstTwo {file : Bytes} {opening later : List Span}
    (h : firstTwo? file = some (opening, later, true)) :
    ∃ reader opened records started,
      (ofStream ⟨file, 0, none⟩ idAndValue .default).on 0 = (.ok reader, opened) ∧
      reader.records.on 0 = (.ok records, started) ∧ reader.metadata.openingSpans = opening ∧
      records.spans 2 = later ∧
      ∀ polled ∈ ((Records.polls 2 records).run started).1,
        ∃ record, polled = some (.ok record) := by
  obtain ⟨reader, hreader, h⟩ := Option.bind_eq_some_iff.mp h
  obtain ⟨records, hrecords, h⟩ := Option.bind_eq_some_iff.mp h
  obtain ⟨hopening, hspans, hpolled⟩ : _ ∧ _ ∧ _ := by
    simpa only [Option.some.injEq, Prod.mk.injEq, pure] using h
  refine ⟨reader, _, records, _, Prod.ext (ok_of_toOption hreader) rfl,
    Prod.ext (ok_of_toOption hrecords) rfl, hopening, hspans, fun polled hmem => ?_⟩
  have hsome := List.all_eq_true.mp hpolled polled hmem
  obtain ⟨record, hrecord⟩ := Option.isSome_iff_exists.mp hsome
  obtain ⟨item, rfl, hitem⟩ := Option.bind_eq_some_iff.mp hrecord
  exact ⟨record, congrArg some (ok_of_toOption hitem)⟩

theorem firstTwo?_twoSections :
    firstTwo? (twoSections 60) = some ([⟨0, 144⟩, ⟨144, 8⟩, ⟨152, 48⟩],
      [⟨200, 4⟩, ⟨220, 8⟩, ⟨204, 8⟩], true) := by
  decide +kernel

theorem twoSections_agrees :
    Stream.Agrees ⟨twoSections 60, 0, none⟩ ⟨7 :: twoSections 77, 1, none⟩
      ([⟨0, 144⟩, ⟨144, 8⟩, ⟨152, 48⟩] ++ [⟨200, 4⟩, ⟨220, 8⟩, ⟨204, 8⟩]) := by
  unfold Stream.Agrees
  decide +kernel

theorem reads_only_spans_twoSections :
    ∃ reader records started,
      (ofStream ⟨twoSections 60, 0, none⟩ idAndValue .default).on 0 = (.ok reader, 200) ∧
      reader.records.on 0 = (.ok records, started) ∧
      (∀ polled ∈ ((Records.polls 2 records).run started).1, ∃ record, polled = some (.ok record)) ∧
      ((Records.polls 2 records).run started).2 = 20 ∧
      ∃ again records', ((ofStream ⟨7 :: twoSections 77, 1, none⟩ idAndValue .default).on 0).1 =
          .ok again ∧ (again.records.on 0).1 = .ok records' ∧
        ((Records.polls 2 records').run 0).1 = ((Records.polls 2 records).run started).1 := by
  have hagrees := twoSections_agrees
  have hseeks : Stream.seekFault ⟨7 :: twoSections 77, 1, none⟩ = none := rfl
  obtain ⟨reader, opened, records, started, hopen, hstart, hopening, hspans, hok⟩ :=
    exists_of_firstTwo firstTwo?_twoSections
  generalize twoSections 60 = file at *
  generalize (⟨7 :: twoSections 77, 1, none⟩ : Stream) = other at *
  obtain ⟨hcount, hpolls⟩ := reads_only_spans rfl hopen
  obtain ⟨hrun, hother⟩ := (hpolls 0 records started hstart).2 2 hok
  rw [← hopening, ← hspans] at hagrees
  obtain ⟨again, records', hagain, _, hrecords', hsame⟩ := hother other false hseeks hagrees
  rw [hopening] at hcount
  rw [hcount] at hopen
  refine ⟨reader, records, started, hopen, hstart, hok, ?_, again, records', hagain 0,
    hrecords' 0, hsame 0⟩
  rw [hrun, hspans]
  rfl

end Reader

end ClientTable
