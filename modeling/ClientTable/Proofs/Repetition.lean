import ClientTable.Proofs.Laziness
import ClientTable.Machine.Session
import ClientTable.Proofs.Drives

/-!
Going through the records of an open file again, however far earlier readings have come: the source
is all that a reading finds of the drive, and it leaves the source as it was. So the records are
those of a reader that has just been opened.
-/

namespace ClientTable

variable {σ α β : Type} {R : σ → σ → Prop}

/-- Two runs that trap alike, or give the same and end in related states. -/
inductive Alike (R : σ → σ → Prop) :
    Except Trap (α × σ) → Except Trap (α × σ) → Prop
  | trap (t : Trap) : Alike R (.error t) (.error t)
  | done (a : α) {s t : σ} (h : R s t) : Alike R (.ok (a, s)) (.ok (a, t))

namespace Stepwise

def Respects (R : σ → σ → Prop) (m : Stepwise σ α) : Prop :=
  ∀ s t, R s t → Alike R (m.run s) (m.run t)

theorem respects_pure (a : α) : Respects R (pure a) :=
  fun _ _ h => .done a h

theorem respects_lift (x : Except Trap α) : Respects R (liftM x) := by
  intro s t h
  cases x with
  | error trap => exact .trap trap
  | ok a => exact .done a h

theorem Respects.bind {m : Stepwise σ α} {f : α → Stepwise σ β} (hm : Respects R m)
    (hf : ∀ a, Respects R (f a)) : Respects R (m >>= f) := by
  intro s t h
  have hst := hm s t h
  rw [StateT.run_bind, StateT.run_bind]
  generalize m.run s = x at hst
  generalize m.run t = y at hst
  cases hst with
  | trap trap => exact .trap trap
  | done a h => exact hf a _ _ h

end Stepwise

namespace Guarded

def Respects (R : σ → σ → Prop) (g : Guarded σ α) : Prop :=
  Stepwise.Respects R g.run

theorem respects_pure (a : α) : Respects R (pure a) :=
  fun _ _ h => .done (Except.ok a : Except Error α) h

theorem respects_lift (x : Except Error α) : Respects R (liftM x) :=
  fun _ _ h => .done x h

theorem respects_throw (e : Error) : Respects R (throw e : Guarded σ α) :=
  respects_lift (.error e)

theorem respects_checked (x : Checked α) : Respects R (liftM x) := by
  intro s t h
  rcases hx : x.run with trap | outcome
  · have hrun (u : σ) : (ExceptT.run (liftM x : Guarded σ α)).run u = .error trap := by
      change x.run.map _ = _
      rw [hx]
      rfl
    rw [hrun, hrun]
    exact .trap trap
  · have hrun (u : σ) : (ExceptT.run (liftM x : Guarded σ α)).run u = .ok (outcome, u) := by
      change x.run.map _ = _
      rw [hx]
      rfl
    rw [hrun, hrun]
    exact .done outcome h

theorem respects_trap (x : Except Trap α) : Respects R (liftM x : Guarded σ α) := by
  intro s t h
  cases x with
  | error trap => exact .trap trap
  | ok a => exact .done (Except.ok a : Except Error α) h

theorem Respects.bind {g : Guarded σ α} {f : α → Guarded σ β} (hg : Respects R g)
    (hf : ∀ a, Respects R (f a)) : Respects R (g >>= f) := by
  unfold Respects
  rw [ExceptT.run_bind]
  refine Stepwise.Respects.bind hg fun outcome => ?_
  cases outcome with
  | error e => exact Stepwise.respects_pure (Except.error e)
  | ok a => exact hf a

theorem respects_throw_bind (e : Error) (f : α → Guarded σ β) :
    Respects R ((throw e : Guarded σ α) >>= f) :=
  respects_throw e

end Guarded

/-- Two drives that read from the source, wherever they have been left. -/
def Drive.On (source : Source) (d d' : Drive) : Prop :=
  d.source = source ∧ d'.source = source

namespace Machine

open Guarded

variable {source : Source}

theorem respects_readSegment (segment : Segment) :
    Respects (Drive.On source) (Drive.readSegment segment) := by
  rintro d d' ⟨rfl, hsource⟩
  unfold Drive.readSegment
  change Alike _ ((Drive.readBlock _ _).on d) ((Drive.readBlock _ _).on d')
  rcases Nat.lt_or_ge (segment.start + d.source.origin) positionLimit with hlt | hle
  · rw [Drive.on_readBlock_of_lt hlt, Drive.on_readBlock_of_lt (by rw [hsource]; exact hlt),
      hsource]
    exact .done _ ⟨rfl, hsource⟩
  · rw [Drive.on_readBlock_of_le _ hle, Drive.on_readBlock_of_le _ (by rw [hsource]; exact hle)]
    exact .trap _

theorem respects_readStringTable (segment : Segment) (intern : Bool) :
    Respects (Drive.On source) (readStringTable segment intern) :=
  (respects_readSegment segment).bind fun _ => respects_pure _

theorem respects_readLocations (segment records : Segment) (recordCount : UInt32) :
    Respects (Drive.On source) (readLocations segment records recordCount) :=
  (respects_checked _).bind fun _ => (respects_readSegment segment).bind fun _ =>
    (respects_lift _).bind fun _ => respects_checked _

theorem respects_readIndexTable (segment : Segment) (recordCount : UInt32) :
    Respects (Drive.On source) (readIndexTable segment recordCount) := by
  refine (respects_checked _).bind fun count => ?_
  split
  · exact respects_throw_bind _ _
  · exact (respects_readSegment segment).bind fun _ => (respects_lift _).bind fun _ =>
      respects_pure _

theorem respects_readCopyTable (segment : Segment) :
    Respects (Drive.On source) (readCopyTable segment) :=
  (respects_checked _).bind fun _ => (respects_readSegment segment).bind fun _ =>
    (respects_lift _).bind fun _ => respects_pure _

theorem respects_readRelationshipTable (segment : Segment) (signature : Signature) :
    Respects (Drive.On source) (readRelationshipTable segment signature) := by
  refine (respects_readSegment segment).bind fun block => ?_
  split
  · exact respects_trap _
  · exact respects_trap _
  · exact respects_checked _

theorem respects_readPalletTable (segment : Segment) :
    Respects (Drive.On source) (readPalletTable segment) :=
  (respects_readSegment segment).bind fun _ => respects_pure _

theorem respects_readCommonTable (segment : Segment) (h : Header) (descriptors : List Descriptor) :
    Respects (Drive.On source) (readCommonTable segment h descriptors) := by
  refine (respects_readSegment segment).bind fun block => ?_
  split
  · exact (respects_lift _).bind fun _ => respects_pure _
  · exact (respects_checked _).bind fun _ => respects_pure _

theorem respects_readPallet (layout : Layout) :
    Respects (Drive.On source) (readPallet layout) := by
  unfold readPallet
  split
  · exact (respects_readPalletTable _).bind fun _ => respects_pure _
  · exact respects_pure none

theorem respects_readCommon (m : Metadata) (h : Header) :
    Respects (Drive.On source) (readCommon m h) := by
  unfold readCommon
  split
  · exact (respects_readCommonTable _ h m.descriptors).bind fun _ => respects_pure _
  · exact respects_pure none

theorem respects_readShared (m : Metadata) : Respects (Drive.On source) (readShared m) := by
  unfold readShared
  split
  · exact respects_pure _
  · exact (respects_readPallet m.layout).bind fun _ => (respects_readCommon m _).bind fun _ =>
      respects_pure _

theorem respects_readStrings (layout : SectionLayout) (records : Segment) (intern : Bool) :
    Respects (Drive.On source) (readStrings layout records intern) := by
  unfold readStrings
  split
  · exact (respects_readStringTable _ intern).bind fun _ => respects_pure _
  · exact (respects_trap _).bind fun _ => respects_pure _

theorem respects_readRows (h : Header) (layout : SectionLayout) (records : Segment) :
    Respects (Drive.On source) (readRows h layout records) := by
  unfold readRows
  split
  · split
    · exact (respects_readLocations _ records layout.recordCount).bind fun _ => respects_pure _
    · exact respects_throw _
  · exact respects_pure _

theorem respects_readKeys (layout : SectionLayout) :
    Respects (Drive.On source) (readKeys layout) := by
  unfold readKeys
  split
  · exact (respects_readIndexTable _ layout.recordCount).bind fun _ => respects_pure _
  · exact respects_pure none

theorem respects_readCopies (layout : SectionLayout) :
    Respects (Drive.On source) (readCopies layout) := by
  unfold readCopies
  split
  · exact respects_readCopyTable _
  · exact respects_pure _

theorem respects_readRelationships (h : Header) (layout : SectionLayout) :
    Respects (Drive.On source) (readRelationships h layout) := by
  unfold readRelationships
  split
  · exact (respects_readRelationshipTable _ h.signature).bind fun _ => respects_pure _
  · exact respects_pure none

theorem respects_readSection (h : Header) (layout : SectionLayout) (intern : Bool) :
    Respects (Drive.On source) (readSection h layout intern) := by
  unfold readSection
  split
  · exact respects_throw _
  · exact (respects_readStrings layout _ intern).bind fun _ =>
      (respects_readRows h layout _).bind fun _ => (respects_readKeys layout).bind fun _ =>
        (respects_readCopies layout).bind fun _ => (respects_readRelationships h layout).bind
          fun _ => respects_pure _

theorem respects_readRow (m : Metadata) (shared : SharedTables) (s : Section) (row : Row) :
    Stepwise.Respects (Drive.On source) (readRow m shared s row) := by
  rintro d d' ⟨rfl, hsource⟩
  cases hmapping : m.mappings[s.index]? with
  | none =>
      unfold readRow
      rw [hmapping]
      exact .done _ ⟨rfl, hsource⟩
  | some mapping =>
      rcases Nat.lt_or_ge (row.offset + d.source.origin) positionLimit with hlt | hle
      · rw [run_readRow_of_lt hmapping hlt, run_readRow_of_lt hmapping (by rw [hsource]; exact hlt),
          hsource]
        cases rowOutcome s m shared mapping row (d.source.block row.offset row.length) with
        | error trap => exact .trap trap
        | ok result => exact .done result ⟨rfl, hsource⟩
      · rw [run_readRow_of_le hmapping hle, run_readRow_of_le hmapping (by rw [hsource]; exact hle)]
        exact .trap _

theorem respects_nextRow (m : Metadata) (shared : SharedTables) (s : Section) :
    Stepwise.Respects (Drive.On source) (nextRow m shared s) := by
  refine (Stepwise.respects_lift _).bind fun next => ?_
  split
  · exact Stepwise.respects_pure _
  · exact (respects_readRow m shared s _).bind fun _ => Stepwise.respects_pure _

theorem respects_nextRecord (m : Metadata) (shared : SharedTables) (s : Section) :
    Stepwise.Respects (Drive.On source) (nextRecord m shared s) := by
  unfold nextRecord
  split
  · exact (Stepwise.respects_lift _).bind fun _ => Stepwise.respects_pure _
  · exact respects_nextRow m shared s

namespace Records

theorem respects_openNext (r : Records) (h : Header) :
    Stepwise.Respects (Drive.On source) (r.openNext h) := by
  induction r using openNext.induct with
  | case1 r hlt ih =>
      rw [openNext, if_pos hlt]
      refine (Stepwise.respects_lift _).bind fun layout =>
        (Stepwise.respects_lift _).bind fun opened =>
          Stepwise.Respects.bind (respects_readSection h layout r.internStrings) fun outcome => ?_
      cases outcome with
      | error e => exact Stepwise.respects_pure _
      | ok s =>
          refine (respects_nextRecord r.metadata r.shared s).bind fun result => ?_
          split
          · exact Stepwise.respects_pure _
          · exact ih
  | case2 r hge =>
      rw [openNext, if_neg hge]
      exact Stepwise.respects_pure _

theorem respects_nextSection (r : Records) :
    Stepwise.Respects (Drive.On source) r.nextSection := by
  unfold nextSection
  split
  · exact respects_openNext r _
  · exact Stepwise.respects_pure _

theorem respects_next (r : Records) : Stepwise.Respects (Drive.On source) r.next := by
  unfold next
  split
  · exact Stepwise.respects_pure _
  · split
    · exact respects_nextSection r
    · refine (respects_nextRecord r.metadata r.shared _).bind fun result => ?_
      split
      · exact Stepwise.respects_pure _
      · exact respects_nextSection _

theorem respects_polls (count : Nat) (r : Records) :
    Stepwise.Respects (Drive.On source) (polls count r) := by
  induction count generalizing r with
  | zero => exact Stepwise.respects_pure _
  | succ count ih =>
      exact (respects_next r).bind fun result => (ih result.2).bind fun _ =>
        Stepwise.respects_pure _

theorem respects_start (m : Metadata) (intern : Bool) :
    Guarded.Respects (Drive.On source) (start m intern) :=
  (respects_readShared m).bind fun _ => respects_pure _

end Records

namespace Reader

/-- A reader of the same file with the same metadata, wherever its drive has been left. -/
structure Like (opened r : Reader) : Prop where
  source : r.drive.source = opened.drive.source
  metadata : r.metadata = opened.metadata
  options : r.options = opened.options

/-- Both readers are like one that has been opened. -/
def BothLike (opened r r' : Reader) : Prop :=
  opened.Like r ∧ opened.Like r'

variable {opened r r' : Reader}

theorem like_refl (opened : Reader) : opened.Like opened :=
  ⟨rfl, rfl, rfl⟩

theorem alike_poll (h : opened.BothLike r r') (count : Nat) :
    Alike opened.BothLike (r.poll count) (r'.poll count) := by
  obtain ⟨hr, hr'⟩ := h
  have hstart := Records.respects_start opened.metadata opened.options.internStrings
    r.drive r'.drive ⟨hr.source, hr'.source⟩
  unfold poll Guarded.on
  rw [hr.metadata, hr'.metadata, hr.options, hr'.options]
  generalize StateT.run (ExceptT.run (Records.start _ _)) r.drive = x at hstart
  generalize StateT.run (ExceptT.run (Records.start _ _)) r'.drive = y at hstart
  cases hstart with
  | trap trap => exact .trap trap
  | @done outcome d d' hd =>
      cases outcome with
      | error e =>
          exact .done (Except.error e : Except Error _)
            ⟨⟨hd.1, rfl, rfl⟩, ⟨hd.2, rfl, rfl⟩⟩
      | ok records =>
          have hpolls := records.respects_polls count d d' hd
          change Alike _ ((records.polls count).run d >>= _) ((records.polls count).run d' >>= _)
          generalize (records.polls count).run d = x at hpolls
          generalize (records.polls count).run d' = y at hpolls
          cases hpolls with
          | trap trap => exact .trap trap
          | done items hd =>
              exact .done (Except.ok items : Except Error _)
                ⟨⟨hd.1, rfl, rfl⟩, ⟨hd.2, rfl, rfl⟩⟩

end Reader

namespace Use

variable {opened r r' : Reader}

theorem alike_run (h : opened.BothLike r r') (u : Use) :
    Alike opened.BothLike (u.run r) (u.run r') := by
  cases u with
  | records count => exact Reader.alike_poll h count
  | typedRecords α count =>
      have hpoll := Reader.alike_poll h count
      change Alike _ (r.poll count >>= _) (r'.poll count >>= _)
      generalize r.poll count = x at hpoll
      generalize r'.poll count = y at hpoll
      cases hpoll with
      | trap trap => exact .trap trap
      | done outcome h => exact .done _ h

theorem fst_run_eq (h : opened.BothLike r r') (u : Use) :
    (u.run r).map Prod.fst = (u.run r').map Prod.fst := by
  have hrun := alike_run h u
  generalize u.run r = x at hrun
  generalize u.run r' = y at hrun
  cases hrun <;> rfl

theorem like_of_runAll {uses : List Use} {r used : Reader} (h : opened.Like r)
    (hused : runAll uses r = .ok used) : opened.Like used := by
  induction uses generalizing r with
  | nil =>
      cases hused
      exact h
  | cons u uses ih =>
      have hrun := alike_run ⟨h, h⟩ u
      unfold runAll at hused
      generalize u.run r = x at hrun hused
      cases hrun with
      | trap trap => cases hused
      | done _ hafter => exact ih hafter.1 hused

end Use

/-- However often the records of an open file have been gone through, how far and with what outcome,
going through them again gives what it gives for a reader that has just been opened: the records can
be started or not, and then every poll gives the same. What is known about the file stays. -/
theorem run_after_uses {opened used : Reader} {uses : List Use}
    (hused : Use.runAll uses opened = .ok used) :
    used.metadata = opened.metadata ∧
      ∀ use : Use, (use.run used).map Prod.fst = (use.run opened).map Prod.fst := by
  have hlike := Use.like_of_runAll opened.like_refl hused
  exact ⟨hlike.metadata, fun use => Use.fst_run_eq ⟨hlike, opened.like_refl⟩ use⟩

/-- The reader of a file and what is left of it after it has given out a record whose copy is still
to come, then no record and then all of them. -/
def usedUp? (file : Bytes) : Option (Reader × Reader) := do
  let outcome ← (Reader.ofStream ⟨file, 0, none⟩ ClientTable.Reader.idAndValue .default).toOption
  let opened ← outcome.toOption
  let used ← (Use.runAll [.records 1, .records 0, .records 9] opened).toOption
  return (opened, used)

theorem exists_of_usedUp {file : Bytes}
    (h : ((usedUp? file).map fun r => decide (r.1.drive ≠ r.2.drive)) = some true) :
    ∃ opened used, Reader.ofStream ⟨file, 0, none⟩ ClientTable.Reader.idAndValue .default =
        .ok (.ok opened) ∧
      Use.runAll [.records 1, .records 0, .records 9] opened = .ok used ∧
      opened.drive ≠ used.drive := by
  obtain ⟨_, hreaders, hmoved⟩ := Option.map_eq_some_iff.mp h
  obtain ⟨outcome, houtcome, hreaders⟩ := Option.bind_eq_some_iff.mp hreaders
  obtain ⟨opened, hopened, hreaders⟩ := Option.bind_eq_some_iff.mp hreaders
  obtain ⟨used, hused, hreaders⟩ := Option.bind_eq_some_iff.mp hreaders
  cases hreaders
  cases Attempt.ok_of_toOption hopened
  exact ⟨opened, used, Attempt.ok_of_toOption houtcome, Attempt.ok_of_toOption hused,
    of_decide_eq_true hmoved⟩

theorem moved_twoSections :
    ((usedUp? (ClientTable.Reader.twoSections 60)).map fun r =>
      decide (r.1.drive ≠ r.2.drive)) = some true := by
  decide +kernel

theorem run_after_uses_twoSections :
    ∃ opened used, Reader.ofStream ⟨ClientTable.Reader.twoSections 60, 0, none⟩
        ClientTable.Reader.idAndValue .default = .ok (.ok opened) ∧
      Use.runAll [.records 1, .records 0, .records 9] opened = .ok used ∧
      opened.drive ≠ used.drive ∧ used.metadata = opened.metadata ∧
      ((Use.records 5).run used).map Prod.fst = ((Use.records 5).run opened).map Prod.fst := by
  have hmoved := moved_twoSections
  generalize ClientTable.Reader.twoSections 60 = file at *
  obtain ⟨opened, used, hopen, hused, hmoved⟩ := exists_of_usedUp hmoved
  obtain ⟨hsame, hrun⟩ := run_after_uses hused
  exact ⟨opened, used, hopen, hused, hmoved, hsame, hrun (.records 5)⟩

end Machine

end ClientTable
