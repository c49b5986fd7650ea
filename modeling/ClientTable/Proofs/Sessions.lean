import ClientTable.Machine.Session
import ClientTable.Proofs.Laziness
import ClientTable.Proofs.MachineSections

namespace ClientTable.Machine

open Attempt

namespace Records

/-- What both keep while the records are gone through. -/
structure Shares (source : Source) (r : Records) (t : ClientTable.Records) : Prop where
  source : t.source = source
  metadata : t.metadata = r.metadata
  shared : t.shared = r.shared
  internStrings : t.internStrings = r.internStrings
  bounded : r.metadata.IsBounded

/-- The machine has come as far. It counts the sections that have been opened, where the records
without it list those that have not. -/
structure Follows (source : Source) (r : Records) (t : ClientTable.Records) : Prop extends
    Shares source r t where
  finished : t.finished = r.finished
  upcoming : r.finished = false → t.upcoming = r.metadata.layout.sections.drop r.opened
  current : r.finished = false → t.current = r.current
  bounds : r.finished = false → ∀ s, r.current = some s → s.IsBounded

/-- Both give the same item, and the machine has come as far. -/
def SameNext (source : Source) (x : Option Item × Records)
    (y : Option Item × ClientTable.Records) : Prop :=
  x.1 = y.1 ∧ Follows source x.2 y.2

variable {source : Source} {r : Records} {t : ClientTable.Records}

/-- However far the two have come, they are at one when both have come to their end. -/
theorem Shares.finish (h : Shares source r t) : Follows source r.finish t.finish where
  toShares := { h with }
  finished := rfl
  upcoming := nofun
  current := nofun
  bounds := nofun

theorem Shares.after (h : Shares source r t) (hr : r.finished = false) (ht : t.finished = false)
    (hupcoming : t.upcoming = r.metadata.layout.sections.drop r.opened) {s : Section}
    (hs : s.IsBounded) (item : Item) : Follows source (r.after item s) (t.after item s) := by
  have hkept : Shares source { r with current := some s } t :=
    { h with }
  cases item with
  | error e => exact hkept.finish
  | ok record =>
      refine ⟨{ h with }, ht.trans hr.symm,
        fun _ => hupcoming, fun _ => rfl, fun _ => ?_⟩
      rintro _ ⟨⟩
      exact hs

theorem getElem?_of_drop_eq_cons {α : Type} {items rest : List α} {index : Nat} {a : α}
    (h : items.drop index = a :: rest) :
    items[index]? = some a ∧ items.drop (index + 1) = rest := by
  constructor
  · rw [← List.head?_drop, h]
    rfl
  · rw [← List.drop_drop, h]
    rfl

/-- Sections that have been opened can be counted. -/
theorem Shares.opened_lt (h : Shares source r t)
    (hopened : r.opened < r.metadata.layout.sections.length) : r.opened + 1 < positionLimit := by
  have hcount := h.bounded.sections
  rw [wordLimit] at hcount
  rw [positionLimit]
  omega

section

variable (horigin : source.origin = 0)

include horigin

/-- The induction is on the sections that the records without a machine still list. -/
theorem mirrors_openNext {h : Header} {upcoming : List SectionLayout} (hshares : Shares source r t)
    (hr : r.finished = false) (ht : t.finished = false) (hheader : r.metadata.header = some h)
    (hupcoming : r.metadata.layout.sections.drop r.opened = upcoming) :
    Stepwise.Mirrors (Holds source) (SameNext source) (r.openNext h) (t.openNext h upcoming) := by
  induction upcoming generalizing r with
  | nil =>
      have hnone : ¬ r.opened < r.metadata.layout.sections.length :=
        Nat.not_lt.mpr (List.drop_eq_nil_iff.mp hupcoming)
      rw [openNext, if_neg hnone]
      exact Stepwise.mirrors_pure ⟨rfl, hshares.finish⟩
  | cons layout rest ih =>
      obtain ⟨hlayout, hrest⟩ := getElem?_of_drop_eq_cons hupcoming
      obtain ⟨hopened, _⟩ := List.getElem?_eq_some_iff.mp hlayout
      have hbounded := (hshares.bounded.layout h hheader).sections layout
        (List.mem_of_getElem? hlayout)
      rw [openNext, if_pos hopened, Stepwise.trap_bind (Checked.item_of_getElem? hlayout),
        Stepwise.trap_bind (Checked.add_of_lt (hshares.opened_lt hopened)),
        ClientTable.Records.openNext, hshares.source, hshares.internStrings, hshares.metadata,
        hshares.shared]
      refine (Stepwise.mirrors_of_guarded (mirrors_readSection horigin hbounded r.internStrings)
        (Section.ensures_read source h layout r.internStrings)).bind ?_
      rintro outcome _ ⟨rfl, hfresh⟩
      have hkept : Shares source { r with opened := r.opened + 1 } t := { hshares with }
      cases outcome with
      | error e => exact Stepwise.mirrors_pure ⟨rfl, hkept.finish⟩
      | ok s =>
          refine (mirrors_nextRecord horigin hshares.bounded
            ((hfresh s rfl).isBounded hbounded)).bind ?_
          rintro ⟨item, s'⟩ _ ⟨rfl, hs⟩
          cases item with
          | none => exact ih { hshares with } hr hheader hrest
          | some item =>
              have hcome : Shares source { r with opened := r.opened + 1 }
                  ⟨source, r.metadata, r.shared, r.internStrings, rest, t.current, t.finished⟩ :=
                ⟨rfl, rfl, rfl, rfl, hshares.bounded⟩
              exact Stepwise.mirrors_pure ⟨rfl, hcome.after hr ht hrest.symm hs item⟩

theorem mirrors_nextSection (h : Follows source r t) (hr : r.finished = false) :
    Stepwise.Mirrors (Holds source) (SameNext source) r.nextSection t.nextSection := by
  unfold nextSection ClientTable.Records.nextSection
  rw [h.metadata]
  cases hheader : r.metadata.header with
  | none => exact Stepwise.mirrors_pure ⟨rfl, h.finish⟩
  | some header =>
      have hupcoming := h.upcoming hr
      exact mirrors_openNext horigin h.toShares hr (h.finished.trans hr) hheader hupcoming.symm

/-- One poll, and what it keeps. -/
theorem mirrors_next (h : Follows source r t) :
    Stepwise.Mirrors (Holds source) (SameNext source) r.next t.next := by
  unfold next ClientTable.Records.next
  rw [h.finished]
  cases hr : r.finished with
  | true => exact Stepwise.mirrors_pure ⟨rfl, h⟩
  | false =>
      simp only [Bool.false_eq_true, if_false]
      rw [h.current hr]
      cases hcurrent : r.current with
      | none => exact mirrors_nextSection horigin h hr
      | some s =>
          have hbounds := h.bounds hr s hcurrent
          dsimp only
          rw [h.source, h.metadata, h.shared]
          refine (mirrors_nextRecord horigin h.bounded hbounds).bind ?_
          rintro ⟨item, s'⟩ _ ⟨rfl, hs⟩
          cases item with
          | none =>
              have hleft : Follows source { r with current := none, finished := false }
                  ⟨source, r.metadata, r.shared, t.internStrings, t.upcoming, none, false⟩ := by
                refine ⟨⟨rfl, rfl, rfl, h.internStrings, h.bounded⟩, rfl, fun _ => h.upcoming hr,
                  fun _ => rfl, fun _ => ?_⟩
                rintro _ ⟨⟩
              exact mirrors_nextSection horigin hleft rfl
          | some item =>
              exact Stepwise.mirrors_pure
                ⟨rfl, h.toShares.after hr (h.finished.trans hr) (h.upcoming hr) hs item⟩

/-- A run of polls: each step keeps the two together. -/
theorem mirrors_polls (count : Nat) (h : Follows source r t) :
    Stepwise.Mirrors (Holds source) Eq (polls count r) (t.polls count) := by
  induction count generalizing r t with
  | zero => exact Stepwise.mirrors_pure rfl
  | succ count ih =>
      refine (mirrors_next horigin h).bind ?_
      rintro ⟨item, r'⟩ ⟨_, t'⟩ ⟨rfl, hfollows⟩
      refine (ih hfollows).bind ?_
      rintro items _ rfl
      exact Stepwise.mirrors_pure rfl

end

/-- Starting the records gives the same error, or records that have come as far. -/
theorem mirrors_start (horigin : source.origin = 0) {m : Metadata} (hm : m.IsBounded)
    (intern : Bool) :
    Stepwise.Mirrors (Holds source)
      (fun x y => (∃ e, x = .error e ∧ y = .error e) ∨
        ∃ r t, x = .ok r ∧ y = .ok t ∧ Follows source r t ∧ t.Fresh)
      (start m intern).run (ClientTable.Records.start source m intern).run := by
  intro d count hd
  obtain ⟨d', hread, hafter⟩ := mirrors_readShared horigin hm d count hd
  rcases hshared : (SharedTables.read source m).on count with ⟨_ | shared, after⟩
  · rw [hshared] at hread hafter
    rw [show (start m intern).run.run d = _ from Guarded.on_bind_of_error hread,
      show (ClientTable.Records.start source m intern).run.run count = _ from
        Attempt.on_bind_of_error hshared]
    exact ⟨_, d', rfl, Or.inl ⟨_, rfl, rfl⟩, hafter⟩
  · rw [hshared] at hread hafter
    rw [show (start m intern).run.run d = _ from Guarded.on_bind_of_ok hread,
      show (ClientTable.Records.start source m intern).run.run count = _ from
        Attempt.on_bind_of_ok hshared]
    refine ⟨_, d', rfl, Or.inr ⟨_, _, rfl, rfl, ?_, rfl, rfl, rfl⟩, hafter⟩
    exact ⟨⟨rfl, rfl, rfl, rfl, hm⟩, rfl, fun _ => rfl, fun _ => rfl, fun _ => nofun⟩

end Records

namespace Reader

/-- The machine has the same file open, with the same metadata. -/
structure Agrees (r : Reader) (q : ClientTable.Reader) : Prop where
  source : r.drive.source = q.source
  metadata : r.metadata = q.metadata
  options : r.options = q.options
  origin : q.source.origin = 0
  bounded : q.metadata.IsBounded

variable {r : Reader} {q : ClientTable.Reader}

theorem matches_records (q : ClientTable.Reader) :
    Reading.Matches (fun _ => False) q.records q.records :=
  (SharedTables.matches_read q.source.matches_self q.metadata).bind fun _ => Reading.matches_pure _

theorem poll_eq_of_error {q : ClientTable.Reader} {count : Nat} {e : Error} (polls : Nat)
    (h : (q.records.on count).1 = .error e) : q.poll polls = .error e := by
  rw [(matches_records q).on_eq, Reading.outcome] at h
  unfold ClientTable.Reader.poll
  rcases hzero : q.records.on 0 with ⟨x, started⟩
  rw [hzero] at h
  obtain rfl : x = .error e := h
  rfl

theorem poll_eq_of_ok {q : ClientTable.Reader} {count : Nat} {t : ClientTable.Records}
    (polls after : Nat) (fresh : t.Fresh) (h : (q.records.on count).1 = .ok t) :
    q.poll polls = .ok ((t.polls polls).run after).1 := by
  rw [(matches_records q).on_eq, Reading.outcome] at h
  unfold ClientTable.Reader.poll
  rcases hzero : q.records.on 0 with ⟨x, started⟩
  rw [hzero] at h
  obtain rfl : x = .ok t := h
  dsimp only
  rw [ClientTable.Records.run_polls fresh.sound, ClientTable.Records.run_polls fresh.sound]
  rfl

theorem Agrees.exists_poll (h : r.Agrees q) (polls : Nat) :
    ∃ r', r.poll polls = .ok (q.poll polls, r') ∧ r'.Agrees q := by
  obtain ⟨x, d, hstart, hsame, hholds⟩ := Records.mirrors_start h.origin h.bounded
    q.options.internStrings r.drive r.drive.handedOut ⟨h.source, rfl⟩
  unfold poll Guarded.on
  rw [h.metadata, h.options, hstart]
  rcases hsame with ⟨e, rfl, hrecords⟩ | ⟨records, t, rfl, hrecords, hfollows, fresh⟩
  · rw [poll_eq_of_error polls hrecords]
    exact ⟨_, rfl, hholds.1, rfl, rfl, h.origin, h.bounded⟩
  · obtain ⟨items, d', hpolls, rfl, hafter⟩ :=
      Records.mirrors_polls h.origin polls hfollows d _ hholds
    rw [poll_eq_of_ok polls (q.records.on r.drive.handedOut).2 fresh hrecords]
    refine ⟨⟨d', q.metadata, q.options⟩, ?_, hafter.1, rfl, rfl, h.origin, h.bounded⟩
    change (records.polls polls).run d >>= _ = _
    rw [hpolls]
    rfl

theorem ofStream_drive (stream : Stream) (copyToMemory : Bool) :
    (∃ e, Drive.ofStream stream copyToMemory = .error e ∧
      (Source.ofStream stream copyToMemory).on 0 = (.error e, 0)) ∨
    ∃ d, Drive.ofStream stream copyToMemory = .ok d ∧
      (Source.ofStream stream copyToMemory).on 0 = (.ok d.source, d.handedOut) ∧
      (stream.position = 0 → d.source.origin = 0) := by
  unfold Drive.ofStream Source.ofStream
  cases stream.seekFault with
  | some reason => exact Or.inl ⟨_, rfl, rfl⟩
  | none =>
      right
      cases copyToMemory with
      | true =>
          refine ⟨_, rfl, ?_, fun _ => rfl⟩
          exact congrArg (Prod.mk _) (Nat.zero_add _)
      | false => exact ⟨_, rfl, rfl, id⟩

theorem Agrees.exists_perform (h : r.Agrees q) {stream : Stream} (horigin : stream.position = 0)
    (action : Action) :
    ∃ r', r.perform stream action = .ok ((q.perform stream action).1, r') ∧
      r'.Agrees (q.perform stream action).2 := by
  cases action with
  | records polls =>
      obtain ⟨r', hpoll, hagrees⟩ := h.exists_poll polls
      refine ⟨r', ?_, hagrees⟩
      rw [perform, hpoll]
      rfl
  | count =>
      refine ⟨r, ?_, h⟩
      rw [perform, h.metadata, totalRecordCount_eq h.bounded]
      rfl
  | reopen options =>
      rw [perform, ClientTable.Reader.perform, withMetadata, ClientTable.Reader.withMetadata,
        h.metadata]
      rcases ofStream_drive stream options.copyToMemory with ⟨e, hdrive, hsource⟩ | hopens
      · rw [hdrive, on_bind_of_error hsource]
        exact ⟨r, rfl, h⟩
      · obtain ⟨d, hdrive, hsource, hzero⟩ := hopens
        rw [hdrive, on_bind_of_ok hsource]
        exact ⟨_, rfl, rfl, rfl, rfl, hzero horigin, h.bounded⟩

theorem Agrees.answers_eq (h : r.Agrees q) {stream : Stream} (horigin : stream.position = 0)
    (actions : List Action) :
    r.answers stream actions = .ok (q.answers stream actions) := by
  induction actions generalizing r q with
  | nil => rfl
  | cons action actions ih =>
      obtain ⟨r', hperform, hagrees⟩ := h.exists_perform horigin action
      rw [answers, hperform]
      change (do let others ← answers stream actions r'; return _ :: others) = _
      rw [ih hagrees]
      rfl

/-- Opening a file gives the same error, or readers that agree. -/
theorem ofStream_agrees {stream : Stream} (horigin : stream.position = 0) {schema : Schema}
    (hschema : schema.fields.length < Descriptor.schemaLimit) (options : Options) :
    (∃ e, (ofStream stream schema options).run = .ok (.error e) ∧
      ((ClientTable.Reader.ofStream stream schema options).on 0).1 = .error e) ∨
    ∃ r q, (ofStream stream schema options).run = .ok (.ok r) ∧
      ((ClientTable.Reader.ofStream stream schema options).on 0).1 = .ok q ∧ r.Agrees q := by
  unfold ofStream ClientTable.Reader.ofStream
  rcases ofStream_drive stream options.copyToMemory with ⟨e, hdrive, hsource⟩ | hopens
  · rw [hdrive, on_bind_of_error hsource]
    exact Or.inl ⟨e, rfl, rfl⟩
  · obtain ⟨d, hdrive, hsource, hzero⟩ := hopens
    obtain ⟨d', hread, hholds⟩ :=
      mirrors_readMetadata (hzero horigin) hschema d d.handedOut ⟨rfl, rfl⟩
    have hensures := Metadata.ensures_read_isBounded d.source hschema d.handedOut
    rw [hdrive, on_bind_of_ok hsource, Checked.ok_bind, Checked.trap_bind hread]
    rcases hmetadata : (Metadata.read d.source schema).on d.handedOut with ⟨_ | m, count⟩
    · rw [on_bind_of_error hmetadata]
      exact Or.inl ⟨_, rfl, rfl⟩
    · rw [hmetadata] at hholds hensures
      have hm := hensures m rfl
      rw [on_bind_of_ok hmetadata]
      refine Or.inr ⟨⟨d', m, options⟩, _, ?_, rfl, hholds.1, rfl, rfl, hzero horigin, hm⟩
      dsimp only
      rw [Checked.ok_bind, copyCount_eq hm]
      rfl

end Reader

/-- A machine opens the file and does all that the caller wants without a trap, and answers what
unbounded numbers answer. -/
theorem run_session_eq_ok {stream : Stream} (horigin : stream.position = 0) {schema : Schema}
    (hschema : schema.fields.length < Descriptor.schemaLimit) (options : Options)
    (actions : List Action) :
    (session stream schema options actions).run =
      .ok (ClientTable.session stream schema options actions) := by
  unfold ClientTable.session
  rcases Reader.ofStream_agrees horigin hschema options with ⟨e, hopen, hreader⟩ | hopens
  · rw [session, ExceptT.run_bind, hopen, hreader]
    rfl
  · obtain ⟨r, q, hopen, hreader, hagrees⟩ := hopens
    rw [session, ExceptT.run_bind, hopen, hreader]
    change (liftM (r.answers stream actions) : Checked (List Answer)).run = _
    rw [hagrees.answers_eq horigin actions]
    rfl

def recordsIn? : Answer → Option Nat
  | .items (.ok items) => some (items.filterMap fun item => item.bind Except.toOption).length
  | .count (.ok count) => some count
  | .reopened (.ok _) => some 0
  | .items (.error _) | .count (.error _) | .reopened (.error _) => none

theorem recordsIn_twoSections :
    (ClientTable.session ⟨ClientTable.Reader.twoSections 60, 0, none⟩ ClientTable.Reader.idAndValue
        .default [.records 1, .count, .reopen ⟨true, true⟩, .records 9]).toOption.map
      (fun answers => answers.map recordsIn?) = some [some 1, some 3, some 0, some 3] := by
  decide +kernel

theorem run_session_twoSections :
    ∃ answers, (session ⟨ClientTable.Reader.twoSections 60, 0, none⟩ ClientTable.Reader.idAndValue
        .default [.records 1, .count, .reopen ⟨true, true⟩, .records 9]).run = .ok (.ok answers) ∧
      answers.map recordsIn? = [some 1, some 3, some 0, some 3] := by
  have hrecords := recordsIn_twoSections
  generalize ClientTable.Reader.twoSections 60 = file at *
  obtain ⟨answers, hanswers, hrecords⟩ := Option.map_eq_some_iff.mp hrecords
  refine ⟨answers, ?_, hrecords⟩
  rw [run_session_eq_ok rfl (by decide), ok_of_toOption hanswers]

end ClientTable.Machine
