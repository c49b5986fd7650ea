import ClientTable.Proofs.Footprints
import ClientTable.Proofs.RecordKeys

namespace ClientTable

/-- The byte range of a row. -/
def Row.span (row : Row) : Span :=
  ⟨row.offset, row.length⟩

/-- An item, the number of sections that are open by then, and the row that has been read for it. -/
structure Traced where
  item : Item
  opened : Nat
  row? : Option Row

namespace Traced

/-- The range of the row that has been read. -/
def spans (x : Traced) : List Span :=
  x.row?.toList.map Row.span

def ofRow (opened : Nat) (row : Row) : List Item → List Traced
  | [] => []
  | item :: copies => ⟨item, opened, some row⟩ :: copies.map fun copy => ⟨copy, opened, none⟩

theorem map_item_ofRow (opened : Nat) (row : Row) (items : List Item) :
    (ofRow opened row items).map item = items := by
  cases items with
  | nil => rfl
  | cons first copies => simp [ofRow, Function.comp_def]

end Traced

namespace Section

variable (source : Source) (m : Metadata) (shared : SharedTables)

/-- What a section still has to give out, traced to its rows. -/
def traced (opened : Nat) (s : Section) : List Traced :=
  (match s.pending with
    | some (base, keys) => keys.map fun key => ⟨base.withKey key, opened, none⟩
    | none => []) ++
  s.rows.rows.flatMap fun row => Traced.ofRow opened row (s.rowItems source m shared row)

variable {source m shared} {t : Source} {s : Section} {row : Row} {base : Record} {opened : Nat}

theorem run_readRow_of_decoded (h : (s.decoded source m shared row).1 = .ok base)
    (hagrees : source.Agrees t [row.span]) (count : Nat) :
    (s.readRow t m shared row).run count =
      (s.decoded source m shared row, count + t.cost row.length) := by
  obtain ⟨mapping, data, _, _, hmapping, hblock, _⟩ := exists_of_decoded h
  obtain ⟨hlength, hdata⟩ := Source.block_eq_ok_iff.mp hblock
  have hfound : t.found row.offset row.length = data :=
    (hagrees row.span (List.mem_singleton_self _)).trans hdata.symm
  have hsame : t.block row.offset row.length = .ok data :=
    Source.block_eq_ok_iff.mpr ⟨hlength, hfound.symm⟩
  unfold readRow decoded
  rw [hmapping]
  dsimp only
  rw [StateT.run_bind, show (t.readBlock row.offset row.length).run.run count = _ from
    t.on_readBlock row.offset row.length count, hblock, hsame, hfound, hlength]
  rfl

/-- Asking a section for a record draws the row that the record is traced to. -/
theorem run_nextRow_of_traced {bytes : Bytes} (hs : s.strings.Keeps bytes)
    (hpending : ∀ base key keys, s.pending ≠ some (base, key :: keys)) {record : Record}
    {x : Traced} {rest : List Traced} (hx : x.item = .ok record)
    (htraced : s.traced source m shared opened = x :: rest) :
    x.opened = opened ∧ ∃ after : Section, (∃ bytes, after.strings.Keeps bytes) ∧
      after.traced source m shared opened = rest ∧
      ∀ t, source.Agrees t x.spans → ∀ count, (s.nextRow t m shared).run count =
        ((some (.ok record), after), count + t.cost (Span.size x.spans)) := by
  -- No copy is pending, so what is traced first belongs to the next row.
  have hnothing : (match s.pending with
      | some (base, keys) => keys.map fun key => (⟨base.withKey key, opened, none⟩ : Traced)
      | none => []) = [] := by
    cases hp : s.pending with
    | none => rfl
    | some pair =>
        obtain ⟨base, keys⟩ := pair
        cases keys with
        | nil => rfl
        | cons key keys => exact absurd hp (hpending base key keys)
  unfold traced at htraced
  rw [hnothing, List.nil_append] at htraced
  cases hnext : s.rows.next? with
  | none =>
      rw [RowCursor.rows_of_next?_eq_none hnext] at htraced
      cases htraced
  | some next =>
      obtain ⟨row, rows⟩ := next
      have hself : s.SameTables s := ⟨rfl, rfl, rfl, ⟨bytes, hs, hs⟩, rfl, rfl, rfl, rfl⟩
      have hkeeps := (hself.decoded source m shared hs hs row).2
      have hlater (pending : Option (Record × List UInt32)) : s.SameTables
          { s with rows, strings := (s.decoded source m shared row).2, pending } :=
        ⟨rfl, rfl, rfl, ⟨bytes, hs, hkeeps⟩, rfl, rfl, rfl, rfl⟩
      rw [RowCursor.rows_of_next?_eq_some hnext, List.flatMap_cons, rowItems] at htraced
      cases hdecoded : (s.decoded source m shared row).1 with
      | error e =>
          rw [hdecoded] at htraced
          cases htraced
          cases hx
      | ok base =>
          rw [hdecoded] at htraced
          obtain ⟨rfl, rfl⟩ := List.cons.inj htraced
          cases hx
          refine ⟨rfl, { s with
            rows
            strings := (s.decoded source m shared row).2
            pending := some (record, s.duplicateKeys record) }, ⟨bytes, hkeeps⟩, ?_, ?_⟩
          · unfold traced
            rw [← (hlater _).rowItems source m shared]
            simp [Function.comp_def]
          · intro t hagrees count
            have hrun := run_readRow_of_decoded hdecoded hagrees count
            have hpair : s.decoded source m shared row =
                (.ok record, (s.decoded source m shared row).2) := Prod.ext hdecoded rfl
            unfold nextRow
            rw [hnext]
            dsimp only
            rw [StateT.run_bind, hrun, hpair]
            rfl

theorem run_next_of_traced {bytes : Bytes} (hs : s.strings.Keeps bytes) {record : Record}
    {x : Traced} {rest : List Traced} (hx : x.item = .ok record)
    (htraced : s.traced source m shared opened = x :: rest) :
    x.opened = opened ∧ ∃ after : Section, (∃ bytes, after.strings.Keeps bytes) ∧
      after.traced source m shared opened = rest ∧
      ∀ t, source.Agrees t x.spans → ∀ count, (s.next t m shared).run count =
        ((some (.ok record), after), count + t.cost (Span.size x.spans)) := by
  unfold next
  cases hp : s.pending with
  | none => exact run_nextRow_of_traced hs (by simp [hp]) hx htraced
  | some pair =>
      obtain ⟨base, keys⟩ := pair
      cases keys with
      | nil => exact run_nextRow_of_traced hs (by simp [hp]) hx htraced
      | cons key keys =>
          unfold traced at htraced
          rw [hp] at htraced
          obtain ⟨rfl, rfl⟩ := List.cons.inj htraced
          -- A pending copy is given out without reading anything.
          refine ⟨rfl, { s with pending := some (base, keys) }, ⟨bytes, hs⟩, ?_, ?_⟩
          · have hlater : s.SameTables { s with pending := some (base, keys) } :=
              ⟨rfl, rfl, rfl, ⟨bytes, hs, hs⟩, rfl, rfl, rfl, rfl⟩
            unfold traced
            rw [← hlater.rowItems source m shared]
            rfl
          · intro t _ count
            change ((some (base.withKey key), _), count) = _
            rw [show base.withKey key = .ok record from hx]
            simp [Traced.spans]

/-- A section that has nothing to give out reads nothing. -/
theorem run_next_of_traced_nil (htraced : s.traced source m shared opened = []) (t : Source)
    (count : Nat) :
    (s.next t m shared).run count = ((none, { s with pending := none }), count) := by
  obtain ⟨hpending, hrows⟩ := List.append_eq_nil_iff.mp htraced
  have hnone : s.rows.next? = none := by
    cases hnext : s.rows.next? with
    | none => rfl
    | some next =>
        obtain ⟨row, rows⟩ := next
        rw [RowCursor.rows_of_next?_eq_some hnext, List.flatMap_cons, rowItems] at hrows
        cases hdecoded : (s.decoded source m shared row).1 with
        | error e =>
            rw [hdecoded] at hrows
            cases hrows
        | ok base =>
            rw [hdecoded] at hrows
            cases hrows
  have hrow : s.nextRow t m shared = pure (none, { s with pending := none }) := by
    unfold nextRow
    rw [hnone]
  unfold next
  cases hp : s.pending with
  | none => exact congrArg (fun run => StateT.run run count) hrow
  | some pair =>
      obtain ⟨base, keys⟩ := pair
      cases keys with
      | nil => exact congrArg (fun run => StateT.run run count) hrow
      | cons key keys =>
          rw [hp] at hpending
          cases hpending

end Section

namespace Records

variable (r : Records) (h : Header)

/-- What a section contributes, traced to its rows. -/
def tracedSection (opened : Nat) (layout : SectionLayout) : List Traced :=
  match (Section.read r.source h layout r.internStrings).outcome with
  | .ok s => s.traced r.source r.metadata r.shared opened
  | .error e => [⟨.error e, opened, none⟩]

/-- What sections contribute, where `opened` sections have been opened before. -/
def tracedFrom : (opened : Nat) → List SectionLayout → List Traced
  | _, [] => []
  | opened, layout :: rest =>
      r.tracedSection h (opened + 1) layout ++ tracedFrom (opened + 1) rest

/-- All items of a file, traced to their sections and rows. -/
def traced : List Traced :=
  match r.metadata.header with
  | some h => r.tracedFrom h 0 r.metadata.layout.sections
  | none => []

theorem map_item_tracedSection (opened : Nat) (layout : SectionLayout) :
    (r.tracedSection h opened layout).map Traced.item = r.sectionItems h layout := by
  unfold tracedSection sectionItems
  have hfresh := Section.ensures_read r.source h layout r.internStrings 0
  cases hread : (Section.read r.source h layout r.internStrings).outcome with
  | error e => rfl
  | ok s =>
      simp only [Section.traced, (hfresh s hread).pending, List.nil_append, List.map_flatMap,
        Traced.map_item_ofRow]

theorem map_item_traced : r.traced.map Traced.item = r.itemsOf r.metadata.layout.sections := by
  unfold traced itemsOf
  cases r.metadata.header with
  | none => rfl
  | some h =>
      have hfrom (opened : Nat) (sections : List SectionLayout) :
          (r.tracedFrom h opened sections).map Traced.item =
            sections.flatMap (r.sectionItems h) := by
        induction sections generalizing opened with
        | nil => rfl
        | cons layout rest ih =>
            rw [tracedFrom, List.map_append, map_item_tracedSection, ih, List.flatMap_cons]
      exact hfrom 0 r.metadata.layout.sections

def readFrom (t : Source) : Records :=
  { r with source := t }

/-- The tables that are read when the sections from `opened` up to `last` are opened. -/
def tableSpans (sections : List SectionLayout) (opened last : Nat) : List Span :=
  (sections.take (last - opened)).flatMap SectionLayout.tableSpans

variable {r h} {opened : Nat} {x : Traced} {rest : List Traced} {record : Record}

/-- A record that no open section gives out draws the tables of the sections up to its own, and its
row. -/
theorem run_openNext_of_traced {sections : List SectionLayout}
    (hmaps : ∀ layout ∈ sections, h.hasOffsetMap = false → layout.find? .offsetMap = none)
    (hx : x.item = .ok record) (htraced : r.tracedFrom h opened sections = x :: rest) :
    opened < x.opened ∧ ∃ s : Section, (∃ bytes, s.strings.Keeps bytes) ∧
      s.traced r.source r.metadata r.shared x.opened ++
        r.tracedFrom h x.opened (sections.drop (x.opened - opened)) = rest ∧
      ∀ t, r.source.Agrees t (tableSpans sections opened x.opened ++ x.spans) → ∀ count,
        ((r.readFrom t).openNext h sections).run count =
          ((some (.ok record), { r.readFrom t with
            current := some s, upcoming := sections.drop (x.opened - opened) }),
            count + t.cost (Span.size (tableSpans sections opened x.opened ++ x.spans))) := by
  -- A section without items draws its tables too, before the next one is opened.
  induction sections generalizing opened with
  | nil => cases htraced
  | cons layout sections ih =>
      have hfresh := Section.ensures_read r.source h layout r.internStrings 0
      have huses := Section.uses_read layout (hmaps layout (List.mem_cons_self ..)) r.internStrings
        r.source 0
      unfold tracedFrom tracedSection at htraced
      rcases hread : (Section.read r.source h layout r.internStrings).on 0 with ⟨_ | s, after⟩
      · rw [Reading.outcome, hread] at htraced
        cases htraced
        cases hx
      · rw [Reading.outcome, hread] at htraced
        have hs := (hfresh s (congrArg Prod.fst hread)).strings
        have hdraws := huses s after hread
        dsimp only at htraced
        cases hitems : s.traced r.source r.metadata r.shared (opened + 1) with
        | nil =>
            rw [hitems, List.nil_append] at htraced
            obtain ⟨hlt, later, hkeeps, hrest, hrun⟩ :=
              ih (fun other hother => hmaps other (List.mem_cons_of_mem _ hother)) htraced
            have hmore : x.opened - opened = (x.opened - (opened + 1)) + 1 := by omega
            have hspans : tableSpans (layout :: sections) opened x.opened ++ x.spans =
                layout.tableSpans ++ (tableSpans sections (opened + 1) x.opened ++ x.spans) := by
              unfold tableSpans
              rw [hmore, List.take_succ_cons, List.flatMap_cons, List.append_assoc]
            rw [hmore, List.drop_succ_cons]
            refine ⟨by omega, later, hkeeps, hrest, fun t hagrees count => ?_⟩
            rw [hspans] at hagrees ⊢
            obtain ⟨htables, hagrees⟩ := Source.agrees_append.mp hagrees
            have hopen := hdraws t htables count
            have hnone := Section.run_next_of_traced_nil hitems t
              (count + t.cost (Span.size layout.tableSpans))
            rw [openNext, StateT.run_bind, show (Section.read (r.readFrom t).source h layout
              (r.readFrom t).internStrings).run.run count = _ from hopen]
            change ((s.next t r.metadata r.shared >>= _ : StateM Nat _).run _) = _
            rw [StateT.run_bind, hnone, Span.size_append, Source.cost_add, ← Nat.add_assoc]
            exact hrun t hagrees _
        | cons y others =>
            rw [hitems, List.cons_append] at htraced
            obtain ⟨rfl, rfl⟩ := List.cons.inj htraced
            obtain ⟨hopened, later, hkeeps, hrest, hrun⟩ := Section.run_next_of_traced hs hx hitems
            rw [hopened, Nat.add_sub_cancel_left]
            have hspans : tableSpans (layout :: sections) opened (opened + 1) ++ y.spans =
                layout.tableSpans ++ y.spans := by
              unfold tableSpans
              rw [Nat.add_sub_cancel_left]
              simp
            refine ⟨Nat.lt_succ_self _, later, hkeeps, by rw [hrest]; rfl,
              fun t hagrees count => ?_⟩
            rw [hspans] at hagrees ⊢
            obtain ⟨htables, hagrees⟩ := Source.agrees_append.mp hagrees
            have hopen := hdraws t htables count
            have hitem := hrun t hagrees (count + t.cost (Span.size layout.tableSpans))
            rw [openNext, StateT.run_bind, show (Section.read (r.readFrom t).source h layout
              (r.readFrom t).internStrings).run.run count = _ from hopen]
            change ((s.next t r.metadata r.shared >>= _ : StateM Nat _).run _) = _
            rw [StateT.run_bind, hitem, Span.size_append, Source.cost_add, ← Nat.add_assoc]
            rfl

theorem tracedFrom_update (r : Records) (h : Header) (upcoming : List SectionLayout)
    (current : Option Section) (opened : Nat) (sections : List SectionLayout) :
    ({ r with upcoming, current } : Records).tracedFrom h opened sections =
      r.tracedFrom h opened sections := by
  induction sections generalizing opened with
  | nil => rfl
  | cons layout sections ih =>
      rw [tracedFrom, tracedFrom, ih]
      rfl

def tracedLeft (r : Records) (h : Header) (opened : Nat) : List Traced :=
  (match r.current with
    | some s => s.traced r.source r.metadata r.shared opened
    | none => []) ++ r.tracedFrom h opened r.upcoming

/-- Records of which nothing but the sections and rows that have been read is behind, with what is
needed to go on. -/
structure Running (r : Records) (h : Header) : Prop where
  isHeader : r.metadata.header = some h
  unfinished : r.finished = false
  sound : r.Sound
  maps : ∀ layout ∈ r.upcoming, h.hasOffsetMap = false → layout.find? .offsetMap = none

theorem run_nextSection_of_traced (hr : r.Running h) (hx : x.item = .ok record)
    (htraced : r.tracedFrom h opened r.upcoming = x :: rest) :
    opened ≤ x.opened ∧ ∃ after : Records, after.Running h ∧ after.source = r.source ∧
      after.upcoming = r.upcoming.drop (x.opened - opened) ∧
      after.tracedLeft h x.opened = rest ∧
      ∀ t, r.source.Agrees t (tableSpans r.upcoming opened x.opened ++ x.spans) → ∀ count,
        (r.readFrom t).nextSection.run count = ((some (.ok record), after.readFrom t),
          count + t.cost (Span.size (tableSpans r.upcoming opened x.opened ++ x.spans))) := by
  obtain ⟨hlt, s, hkeeps, hrest, hrun⟩ := run_openNext_of_traced hr.maps hx htraced
  refine ⟨Nat.le_of_lt hlt, { r with
    current := some s, upcoming := r.upcoming.drop (x.opened - opened) }, ⟨hr.isHeader,
    hr.unfinished, ?_, fun layout hlayout => hr.maps layout (List.mem_of_mem_drop hlayout)⟩, rfl,
    rfl, ?_, fun t hagrees count => ?_⟩
  · rintro _ ⟨⟩
    exact hkeeps
  · unfold tracedLeft
    rw [tracedFrom_update]
    exact hrest
  · have hheader : (r.readFrom t).metadata.header = some h := hr.isHeader
    unfold nextSection
    rw [hheader]
    exact hrun t hagrees count

/-- A poll that gives out a record draws the tables of the sections that it opens and the row of the
record, and leaves what is traced behind it. -/
theorem run_next_of_traced (hr : r.Running h) (hx : x.item = .ok record)
    (htraced : r.tracedLeft h opened = x :: rest) :
    opened ≤ x.opened ∧ ∃ after : Records, after.Running h ∧ after.source = r.source ∧
      after.upcoming = r.upcoming.drop (x.opened - opened) ∧
      after.tracedLeft h x.opened = rest ∧
      ∀ t, r.source.Agrees t (tableSpans r.upcoming opened x.opened ++ x.spans) → ∀ count,
        (r.readFrom t).next.run count = ((some (.ok record), after.readFrom t),
          count + t.cost (Span.size (tableSpans r.upcoming opened x.opened ++ x.spans))) := by
  have hopen (t : Source) : ¬ (r.readFrom t).finished = true := by
    change ¬ r.finished = true
    rw [hr.unfinished]
    decide
  unfold tracedLeft at htraced
  cases hcurrent : r.current with
  | none =>
      rw [hcurrent, List.nil_append] at htraced
      obtain ⟨hle, after, hafter, hsource, hupcoming, hrest, hrun⟩ :=
        run_nextSection_of_traced hr hx htraced
      refine ⟨hle, after, hafter, hsource, hupcoming, hrest, fun t hagrees count => ?_⟩
      have hnone : (r.readFrom t).current = none := hcurrent
      unfold next
      rw [if_neg (hopen t), hnone]
      exact hrun t hagrees count
  | some s =>
      rw [hcurrent] at htraced
      dsimp only at htraced
      obtain ⟨bytes, hs⟩ := hr.sound s hcurrent
      have hsome (t : Source) : (r.readFrom t).current = some s := hcurrent
      cases hitems : s.traced r.source r.metadata r.shared opened with
      | nil =>
          rw [hitems, List.nil_append] at htraced
          have hclosed : ({ r with current := none } : Records).Running h :=
            ⟨hr.isHeader, hr.unfinished, nofun, hr.maps⟩
          obtain ⟨hle, after, hafter, hsource, hupcoming, hrest, hrun⟩ :=
            run_nextSection_of_traced hclosed hx
              ((r.tracedFrom_update h r.upcoming none opened r.upcoming).trans htraced)
          refine ⟨hle, after, hafter, hsource, hupcoming, hrest, fun t hagrees count => ?_⟩
          unfold next
          rw [if_neg (hopen t), hsome t]
          change ((s.next t r.metadata r.shared >>= _ : StateM Nat _).run _) = _
          rw [StateT.run_bind, Section.run_next_of_traced_nil hitems t count]
          exact hrun t hagrees count
      | cons y others =>
          rw [hitems, List.cons_append] at htraced
          obtain ⟨rfl, rfl⟩ := List.cons.inj htraced
          obtain ⟨hopened, later, hkeeps, hrest, hrun⟩ := Section.run_next_of_traced hs hx hitems
          have hspans : tableSpans r.upcoming opened y.opened ++ y.spans = y.spans := by
            unfold tableSpans
            rw [hopened, Nat.sub_self]
            rfl
          rw [hspans]
          refine ⟨Nat.le_of_eq hopened.symm, { r with current := some later }, ⟨hr.isHeader,
            hr.unfinished, ?_, hr.maps⟩, rfl, ?_, ?_, fun t hagrees count => ?_⟩
          · rintro _ ⟨⟩
            exact hkeeps
          · rw [hopened, Nat.sub_self]
            rfl
          · unfold tracedLeft
            rw [hopened]
            dsimp only
            rw [hrest, tracedFrom_update]
          · unfold next
            rw [if_neg (hopen t), hsome t]
            change ((s.next t r.metadata r.shared >>= _ : StateM Nat _).run _) = _
            rw [StateT.run_bind, hrun t hagrees count]
            rfl

def openedAfter (opened : Nat) (items : List Traced) : Nat :=
  (items.getLast?.map Traced.opened).getD opened

theorem openedAfter_cons (opened : Nat) (x : Traced) (items : List Traced) :
    openedAfter opened (x :: items) = openedAfter x.opened items := by
  cases items with
  | nil => rfl
  | cons y items => simp [openedAfter, List.getLast?_cons]

theorem tableSpans_append (sections : List SectionLayout) {opened middle last : Nat}
    (hfirst : opened ≤ middle) (hlast : middle ≤ last) :
    tableSpans sections opened last = tableSpans sections opened middle ++
      tableSpans (sections.drop (middle - opened)) middle last := by
  unfold tableSpans
  rw [← List.flatMap_append, ← List.take_add]
  congr 2
  omega

/-- The first polls draw the tables of the sections up to that of the last record, and the rows that
the records are traced to. -/
theorem run_polls_of_traced {items : List Traced} (hr : r.Running h)
    (hitems : ∀ x ∈ items, ∃ record, x.item = .ok record)
    (htraced : r.tracedLeft h opened = items ++ rest) :
    opened ≤ openedAfter opened items ∧
      ∀ t, r.source.Agrees t (tableSpans r.upcoming opened (openedAfter opened items)) →
        r.source.Agrees t (items.flatMap Traced.spans) → ∀ count,
          (polls items.length (r.readFrom t)).run count = (items.map fun x => some x.item,
            count + t.cost
              (Span.size (tableSpans r.upcoming opened (openedAfter opened items)) +
                Span.size (items.flatMap Traced.spans))) := by
  induction items generalizing r opened with
  | nil =>
      refine ⟨Nat.le_refl _, fun t _ _ count => ?_⟩
      have hnone : tableSpans r.upcoming opened (openedAfter opened []) = [] := by
        unfold tableSpans openedAfter
        simp
      rw [hnone, List.flatMap_nil, Span.size_nil, Source.cost_zero]
      rfl
  | cons x items ih =>
      obtain ⟨record, hx⟩ := hitems x (List.mem_cons_self ..)
      obtain ⟨hle, after, hafter, hsource, hupcoming, hrest, hrun⟩ :=
        run_next_of_traced hr hx htraced
      obtain ⟨hlast, hpolls⟩ :=
        ih hafter (fun y hy => hitems y (List.mem_cons_of_mem _ hy)) hrest
      rw [hsource, hupcoming] at hpolls
      rw [openedAfter_cons, tableSpans_append r.upcoming hle hlast, List.flatMap_cons]
      refine ⟨Nat.le_trans hle hlast, fun t htables hrows count => ?_⟩
      obtain ⟨hfirst, hlater⟩ := Source.agrees_append.mp htables
      obtain ⟨hrow, hrows⟩ := Source.agrees_append.mp hrows
      rw [List.length_cons, polls, StateT.run_bind,
        hrun t (Source.agrees_append.mpr ⟨hfirst, hrow⟩) count]
      change ((polls items.length (after.readFrom t) >>= _ : StateM Nat _).run _) = _
      rw [StateT.run_bind, hpolls t hlater hrows]
      simp only [Span.size_append, Source.cost_add, List.map_cons, hx]
      refine Prod.ext rfl ?_
      change count + _ + _ = _
      omega

end Records

end ClientTable
