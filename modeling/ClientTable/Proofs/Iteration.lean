import ClientTable.Proofs.Reading
import ClientTable.Proofs.SectionItems

/-!
Going through the records of a file gives out a list that can be written down beforehand: section
after section, row after row, each record with its copies behind it, up to the first error. After
any number of polls, what is left of the state is a suffix of this list.
-/

namespace ClientTable

theorem exists_of_forall₂_of_mem {α β : Type} {R : α → β → Prop} {xs : List α} {ys : List β}
    (h : List.Forall₂ R xs ys) {y : β} (hy : y ∈ ys) : ∃ x ∈ xs, R x y := by
  induction h with
  | nil => cases hy
  | cons hfirst _ ih =>
      rcases List.mem_cons.mp hy with rfl | hy
      · exact ⟨_, List.mem_cons_self .., hfirst⟩
      · obtain ⟨x, hx, hxy⟩ := ih hy
        exact ⟨x, List.mem_cons_of_mem _ hx, hxy⟩

theorem length_flatMap_eq_total {α β : Type} (f : α → List β) (items : List α) :
    (items.flatMap f).length = total (items.map fun a => (f a).length) :=
  List.length_flatMap

/-- The items up to the first error, which is the last. -/
def untilError : List Item → List Item
  | [] => []
  | .ok record :: items => .ok record :: untilError items
  | .error e :: _ => [.error e]

theorem untilError_eq_self {items : List Item} (h : ∀ e, .error e ∉ untilError items) :
    untilError items = items := by
  induction items with
  | nil => rfl
  | cons item items ih =>
      cases item with
      | error e => exact absurd (List.mem_cons_self ..) (h e)
      | ok record =>
          have hrest := ih fun e he => h e (List.mem_cons_of_mem _ he)
          rw [untilError, hrest]

theorem getElem?_untilError_error {items : List Item} {i : Nat} {e : Error}
    (h : (untilError items)[i]? = some (.error e)) : i + 1 = (untilError items).length := by
  induction items generalizing i with
  | nil => cases h
  | cons item items ih =>
      cases item with
      | error _ =>
          cases i with
          | zero => rfl
          | succ i => cases h
      | ok record =>
          cases i with
          | zero => cases h
          | succ i => exact congrArg Nat.succ (ih h)

theorem Section.outcome_read (source : Source) (h : Header) (layout : SectionLayout)
    (intern : Bool) (count : Nat) :
    ((Section.read source h layout intern).on count).1 =
      (Section.read source h layout intern).outcome :=
  (Section.matches_read source.matches_self h layout intern).on_eq count

namespace Records

/-- What a section contributes: the items of its rows, or the error of opening it. -/
def sectionItems (r : Records) (h : Header) (layout : SectionLayout) : List Item :=
  match (Section.read r.source h layout r.internStrings).outcome with
  | .ok s => s.rows.rows.flatMap (s.rowItems r.source r.metadata r.shared)
  | .error e => [.error e]

/-- What the given sections contribute, one after the other. -/
def itemsOf (r : Records) (sections : List SectionLayout) : List Item :=
  match r.metadata.header with
  | some h => sections.flatMap (r.sectionItems h)
  | none => []

theorem itemsOf_eq {r : Records} {h : Header} (hheader : r.metadata.header = some h)
    (sections : List SectionLayout) : r.itemsOf sections = sections.flatMap (r.sectionItems h) := by
  unfold itemsOf
  rw [hheader]

/-- All that the records of a file should give out: the sections in order, each row with the copies
of its record behind it, up to the first error. -/
def reference (r : Records) : List Item :=
  untilError (r.itemsOf r.metadata.layout.sections)

/-- What is still to be given out. -/
def remaining (r : Records) : List Item :=
  if r.finished then []
  else untilError ((match r.current with
    | some s => s.remaining r.source r.metadata r.shared
    | none => []) ++ r.itemsOf r.upcoming)

/-- The section that is open keeps no wrong texts. -/
def Sound (r : Records) : Prop :=
  ∀ s, r.current = some s → ∃ bytes, s.strings.Keeps bytes

/-- A poll gave out the first of the items, or there are none and there will be none. -/
def Polled (items : List Item) (result : Option Item × Records) : Prop :=
  result.2.Sound ∧
    match result.1 with
    | some item => items = item :: result.2.remaining
    | none => items = [] ∧ result.2.remaining = []

theorem sound_finish (r : Records) : r.finish.Sound :=
  nofun

theorem remaining_finish (r : Records) : r.finish.remaining = [] :=
  rfl

theorem polled_finish (r : Records) : Polled [] (none, r.finish) :=
  ⟨r.sound_finish, rfl, r.remaining_finish⟩

theorem polled_after {r : Records} (hr : r.finished = false) {s : Section} {bytes : Bytes}
    (hs : s.strings.Keeps bytes) (item : Item) :
    Polled (untilError (item :: s.remaining r.source r.metadata r.shared ++ r.itemsOf r.upcoming))
      (some item, r.after item s) := by
  cases item with
  | error e => exact ⟨r.sound_finish, rfl⟩
  | ok record =>
      refine ⟨?_, ?_⟩
      · rintro _ ⟨⟩
        exact ⟨bytes, hs⟩
      · have hafter : (r.after (.ok record) s).finished ≠ true := by
          simp [after, hr]
        unfold remaining
        rw [if_neg hafter]
        rfl

theorem polled_openNext {r : Records} (hr : r.finished = false) {h : Header}
    (hh : r.metadata.header = some h) (sections : List SectionLayout) (count : Nat) :
    Polled (untilError (r.itemsOf sections)) ((r.openNext h sections).run count).1 := by
  -- A section with nothing to give out is passed over, and the next one is opened instead.
  induction sections generalizing count with
  | nil =>
      have hnone : r.itemsOf [] = [] := by
        unfold itemsOf
        rw [hh]
        rfl
      rw [hnone]
      exact r.polled_finish
  | cons layout rest ih =>
      have hitems : r.itemsOf (layout :: rest) = r.sectionItems h layout ++ r.itemsOf rest := by
        unfold itemsOf
        rw [hh]
        rfl
      have houtcome := Section.outcome_read r.source h layout r.internStrings count
      have hfresh := Section.ensures_read r.source h layout r.internStrings count
      rw [hitems]
      unfold sectionItems
      rw [← houtcome, openNext, StateT.run_bind]
      rcases hread : (Section.read r.source h layout r.internStrings).on count with ⟨x, after⟩
      rw [show (Section.read r.source h layout r.internStrings).run.run count = (x, after) from
        hread]
      rw [hread] at hfresh
      cases x with
      | error e => exact ⟨r.sound_finish, rfl⟩
      | ok s =>
          have hs := hfresh s rfl
          obtain ⟨hlater, hnext⟩ := Section.remaining_next r.source r.metadata r.shared
            hs.strings after
          rw [hs.remaining_eq r.source r.metadata r.shared] at hnext
          dsimp only
          rw [hnext]
          change Polled _ ((s.next r.source r.metadata r.shared >>= _ : StateM Nat _).run after).1
          rw [StateT.run_bind]
          rcases hrun : (s.next r.source r.metadata r.shared).run after with ⟨⟨item, t⟩, last⟩
          rw [hrun] at hlater
          obtain ⟨bytes, _, ht⟩ := hlater.strings
          cases item with
          | none => exact ih last
          | some item =>
              exact polled_after (r := { r with upcoming := rest }) hr ht item

theorem polled_nextSection {r : Records} (hr : r.finished = false) (count : Nat) :
    Polled (untilError (r.itemsOf r.upcoming)) (r.nextSection.run count).1 := by
  unfold nextSection
  cases hh : r.metadata.header with
  | none =>
      have hnone : r.itemsOf r.upcoming = [] := by
        unfold itemsOf
        rw [hh]
      rw [hnone]
      exact r.polled_finish
  | some h => exact polled_openNext hr hh r.upcoming count

theorem remaining_of_finished {r : Records} (h : r.finished = true) : r.remaining = [] := by
  unfold remaining
  rw [if_pos h]

theorem polled_next {r : Records} (hsound : r.Sound) (count : Nat) :
    Polled r.remaining (r.next.run count).1 := by
  cases hr : r.finished with
  | true =>
      have hrun : r.next.run count = ((none, r), count) := by
        unfold next
        rw [if_pos hr]
        rfl
      rw [hrun, remaining_of_finished hr]
      exact ⟨hsound, rfl, remaining_of_finished hr⟩
  | false =>
      unfold next remaining
      rw [hr]
      cases hcurrent : r.current with
      | none => exact polled_nextSection hr count
      | some s =>
          obtain ⟨bytes, hs⟩ := hsound s hcurrent
          obtain ⟨hlater, hnext⟩ :=
            Section.remaining_next r.source r.metadata r.shared hs count
          change Polled (untilError (s.remaining r.source r.metadata r.shared ++ _))
            ((s.next r.source r.metadata r.shared >>= _ : StateM Nat _).run count).1
          rw [StateT.run_bind, hnext]
          rcases hrun : (s.next r.source r.metadata r.shared).run count with ⟨⟨item, t⟩, after⟩
          rw [hrun] at hlater
          obtain ⟨_, _, ht⟩ := hlater.strings
          cases item with
          | none =>
              exact polled_nextSection (r := { r with current := none, finished := false }) rfl
                after
          | some item => exact polled_after hr ht item

theorem run_polls {r : Records} (hsound : r.Sound) (limit count : Nat) :
    ((polls limit r).run count).1 = (List.range limit).map fun i => r.remaining[i]? := by
  induction limit generalizing r count with
  | zero => rfl
  | succ limit ih =>
      obtain ⟨hsound, hitems⟩ := polled_next hsound count
      rw [polls, StateT.run_bind, List.range_succ_eq_map, List.map_cons, List.map_map]
      rcases hrun : r.next.run count with ⟨⟨item, t⟩, after⟩
      rw [hrun] at hsound hitems
      change item :: ((polls limit t).run after).1 = _
      rw [ih hsound]
      cases item with
      | none =>
          obtain ⟨hr, ht⟩ := hitems
          change t.remaining = [] at ht
          rw [hr, ht]
          rfl
      | some item =>
          change r.remaining = item :: t.remaining at hitems
          rw [hitems]
          rfl

theorem run_take {r : Records} (hsound : r.Sound) (limit count : Nat) :
    ((take limit r).run count).1.1 = r.remaining.take limit := by
  induction limit generalizing r count with
  | zero => rfl
  | succ limit ih =>
      obtain ⟨hsound, hitems⟩ := polled_next hsound count
      rw [take, StateT.run_bind]
      rcases hrun : r.next.run count with ⟨⟨item, t⟩, after⟩
      rw [hrun] at hsound hitems
      cases item with
      | none =>
          obtain ⟨hr, _⟩ := hitems
          rw [hr]
          rfl
      | some item =>
          change r.remaining = item :: t.remaining at hitems
          rw [hitems, List.take_succ_cons, ← ih hsound after]
          rfl

theorem length_untilError_le (items : List Item) :
    (untilError items).length ≤ items.length := by
  induction items with
  | nil => exact Nat.le_refl 0
  | cons item items ih =>
      cases item with
      | ok record => exact Nat.succ_le_succ ih
      | error e => exact Nat.succ_le_succ (Nat.zero_le _)

theorem length_sectionItems_le (r : Records) (h : Header) (layout : SectionLayout) :
    (r.sectionItems h layout).length ≤ sectionBound layout := by
  unfold sectionItems
  have hfresh := Section.ensures_read r.source h layout r.internStrings 0
  cases hread : (Section.read r.source h layout r.internStrings).outcome with
  | error e => exact Nat.succ_le_succ (Nat.zero_le _)
  | ok s =>
      have hs := hfresh s hread
      dsimp only
      rw [← hs.remaining_eq r.source r.metadata r.shared]
      exact Nat.le_of_lt (hs.length_remaining_lt r.source r.metadata r.shared)

theorem length_itemsOf_le (r : Records) (sections : List SectionLayout) :
    (r.itemsOf sections).length ≤ total (sections.map sectionBound) := by
  unfold itemsOf
  cases r.metadata.header with
  | none => exact Nat.zero_le _
  | some h =>
      induction sections with
      | nil => exact Nat.le_refl 0
      | cons layout sections ih =>
          have hfirst := r.length_sectionItems_le h layout
          simp only [List.flatMap_cons, List.length_append, List.map_cons, total_cons]
          exact Nat.add_le_add hfirst ih

theorem length_reference_le (r : Records) : r.reference.length ≤ bound r.metadata := by
  have hcut := length_untilError_le (r.itemsOf r.metadata.layout.sections)
  have hall := r.length_itemsOf_le r.metadata.layout.sections
  unfold reference bound
  omega

/-- Records of which none has been given out. -/
structure Fresh (r : Records) : Prop where
  upcoming : r.upcoming = r.metadata.layout.sections
  current : r.current = none
  finished : r.finished = false

theorem ensures_start (source : Source) (m : Metadata) (intern : Bool) :
    Attempt.Ensures (start source m intern) fun r =>
      r.Fresh ∧ r.source = source ∧ r.metadata = m ∧ r.internStrings = intern :=
  Attempt.ensures_bind fun _ => Attempt.ensures_pure ⟨⟨rfl, rfl, rfl⟩, rfl, rfl, rfl⟩

theorem shared_of_start {source : Source} {m : Metadata} {intern : Bool} {count : Nat}
    {r : Records} (h : ((start source m intern).on count).1 = .ok r) :
    (SharedTables.read source m).outcome = .ok r.shared := by
  rw [← (SharedTables.matches_read source.matches_self m).on_eq count]
  rcases hread : (SharedTables.read source m).on count with ⟨_ | shared, after⟩
  · rw [start, Attempt.on_bind_of_error hread] at h
    cases h
  · rw [start, Attempt.on_bind_of_ok hread] at h
    cases h
    rfl

namespace Fresh

variable {r : Records}

theorem sound (fresh : r.Fresh) : r.Sound := by
  intro s hs
  rw [fresh.current] at hs
  cases hs

theorem remaining_eq (fresh : r.Fresh) : r.remaining = r.reference := by
  have hopen : r.finished ≠ true := by
    rw [fresh.finished]
    decide
  unfold remaining reference
  rw [if_neg hopen, fresh.current, fresh.upcoming]
  rfl

theorem run_toList (fresh : r.Fresh) (count : Nat) : (r.toList.run count).1 = r.reference := by
  unfold toList
  rw [StateT.run_bind]
  change ((take (bound r.metadata) r).run count).1.1 = _
  rw [run_take fresh.sound, fresh.remaining_eq, List.take_of_length_le r.length_reference_le]

end Fresh

/-- A record with its copies behind it. -/
def withCopies (s : Section) (base : Record) : List Item :=
  .ok base :: (s.duplicateKeys base).map base.withKey

theorem exists_bases_of_rows (r : Records) (s : Section) (rows : List Row)
    (h : ∀ e, .error e ∉ rows.flatMap (s.rowItems r.source r.metadata r.shared)) :
    ∃ bases : List Record,
      List.Forall₂ (fun row base => (s.decoded r.source r.metadata r.shared row).1 = .ok base)
        rows bases ∧
      rows.flatMap (s.rowItems r.source r.metadata r.shared) = bases.flatMap (withCopies s) := by
  induction rows with
  | nil => exact ⟨[], List.Forall₂.nil, rfl⟩
  | cons row rows ih =>
      obtain ⟨bases, hdecoded, hitems⟩ := ih fun e he =>
        h e (List.mem_append_right _ he)
      cases hrow : (s.decoded r.source r.metadata r.shared row).1 with
      | error e =>
          refine absurd ?_ (h e)
          simp [Section.rowItems, hrow]
      | ok base =>
          refine ⟨base :: bases, List.Forall₂.cons hrow hdecoded, ?_⟩
          rw [List.flatMap_cons, List.flatMap_cons, hitems, Section.rowItems, hrow]
          rfl

/-- A section that opens, with the records of its rows, which all decode. -/
structure Decoded (r : Records) (h : Header) (layout : SectionLayout) (s : Section)
    (bases : List Record) : Prop where
  opens : (Section.read r.source h layout r.internStrings).outcome = .ok s
  decodes : List.Forall₂
    (fun row base => (s.decoded r.source r.metadata r.shared row).1 = .ok base) s.rows.rows bases

theorem Decoded.length {r : Records} {h : Header} {layout : SectionLayout} {s : Section}
    {bases : List Record} (decoded : r.Decoded h layout s bases) :
    bases.length = layout.recordCount.toNat := by
  have fresh := Section.ensures_read r.source h layout r.internStrings 0 s decoded.opens
  rw [← decoded.decodes.length_eq, fresh.length_rows]

/-- Without an error every section opens, and every row decodes. -/
theorem exists_decoded {r : Records} {h : Header} {sections : List SectionLayout}
    (herror : ∀ e, .error e ∉ sections.flatMap (r.sectionItems h)) :
    ∃ opened : List (Section × List Record),
      List.Forall₂ (fun layout o => r.Decoded h layout o.1 o.2) sections opened ∧
      sections.flatMap (r.sectionItems h) =
        opened.flatMap fun o => o.2.flatMap (withCopies o.1) := by
  induction sections with
  | nil => exact ⟨[], List.Forall₂.nil, rfl⟩
  | cons layout sections ih =>
      obtain ⟨opened, hdecoded, hitems⟩ := ih fun e he => herror e (List.mem_append_right _ he)
      cases hread : (Section.read r.source h layout r.internStrings).outcome with
      | error e =>
          refine absurd ?_ (herror e)
          simp [sectionItems, hread]
      | ok s =>
          have hsection : r.sectionItems h layout =
              s.rows.rows.flatMap (s.rowItems r.source r.metadata r.shared) := by
            simp only [sectionItems, hread]
          obtain ⟨bases, hrows, hbases⟩ := exists_bases_of_rows r s s.rows.rows fun e he =>
            herror e (List.mem_append_left _ (hsection ▸ he))
          refine ⟨(s, bases) :: opened, List.Forall₂.cons ⟨hread, hrows⟩ hdecoded, ?_⟩
          rw [List.flatMap_cons, List.flatMap_cons, hsection, hbases, hitems]

theorem total_length_of_decoded {r : Records} {h : Header} {sections : List SectionLayout}
    {opened : List (Section × List Record)}
    (hdecoded : List.Forall₂ (fun layout o => r.Decoded h layout o.1 o.2) sections opened) :
    total (opened.map fun o => o.2.length) =
      total (sections.map fun layout => layout.recordCount.toNat) := by
  induction hdecoded with
  | nil => rfl
  | cons hfirst _ ih => simp only [List.map_cons, total_cons, hfirst.length, ih]

theorem exists_bases {r : Records} {h : Header} {sections : List SectionLayout}
    (herror : ∀ e, .error e ∉ sections.flatMap (r.sectionItems h)) :
    ∃ bases : List (Section × Record),
      bases.length = total (sections.map fun layout => layout.recordCount.toNat) ∧
      (∀ base ∈ bases, ∃ layout ∈ sections,
        (Section.read r.source h layout r.internStrings).outcome = .ok base.1) ∧
      sections.flatMap (r.sectionItems h) =
        bases.flatMap fun base => withCopies base.1 base.2 := by
  obtain ⟨opened, hdecoded, hitems⟩ := exists_decoded herror
  refine ⟨opened.flatMap fun o => o.2.map fun base => (o.1, base), ?_, ?_, ?_⟩
  · rw [← total_length_of_decoded hdecoded, length_flatMap_eq_total]
    simp only [List.length_map]
  · intro base hbase
    obtain ⟨o, ho, hbase⟩ := List.mem_flatMap.mp hbase
    obtain ⟨_, _, rfl⟩ := List.mem_map.mp hbase
    obtain ⟨layout, hlayout, hopened⟩ := exists_of_forall₂_of_mem hdecoded ho
    exact ⟨layout, hlayout, hopened.opens⟩
  · rw [hitems, List.flatMap_assoc]
    simp only [List.flatMap_map]

end Records

namespace Reader

theorem ensures_ofStream (stream : Stream) (schema : Schema) (options : Options) :
    Attempt.Ensures (ofStream stream schema options) fun reader =>
      reader.metadata.layout.recordCount = reader.recordCount :=
  Attempt.ensures_bind fun source =>
    (Metadata.ensures_read source schema).bind fun _ hm => Attempt.ensures_pure hm

/-- The records of an open file are those of the reference list. Polls give its items in order and
nothing behind its end; its rows are those on disk; copies never fail and differ from their record
in the key alone; an error is the last item; and without one there are as many records, each with
its copies behind it, as the header declares. -/
theorem items_eq_reference {stream : Stream} {schema : Schema} {options : Options}
    {reader : Reader} {records : Records} {count count' : Nat}
    (hopen : ((ofStream stream schema options).on count).1 = .ok reader)
    (hrecords : (reader.records.on count').1 = .ok records) :
    (records.source = reader.source ∧ records.metadata = reader.metadata ∧
        (SharedTables.read reader.source reader.metadata).outcome = .ok records.shared ∧
        records.internStrings = reader.options.internStrings) ∧
      (∀ limit start, ((Records.polls limit records).run start).1 =
        (List.range limit).map fun i => records.reference[i]?) ∧
      (∀ start, (records.toList.run start).1 = records.reference) ∧
      (∀ h layout s,
        (Section.read records.source h layout records.internStrings).outcome = .ok s →
        s.Fresh records.source h layout) ∧
      (∀ (s : Section) (base : Record),
        s.duplicateKeys base =
          (s.copies.copies.filter fun c => base.key? = some c.sourceKey).map Copy.newKey ∧
        ∀ key ∈ s.duplicateKeys base, ∃ value copied, base.at? base.keyField = some value ∧
          value.withKey key = .ok copied ∧
          base.withKey key = .ok { base with values := base.values.set base.keyField copied }) ∧
      (∀ i e, records.reference[i]? = some (.error e) → i + 1 = records.reference.length) ∧
      ((∀ e, .error e ∉ records.reference) → ∃ bases : List (Section × Record),
        bases.length = reader.recordCount ∧
        (∀ base ∈ bases, ∃ h layout, reader.metadata.header = some h ∧
          layout ∈ reader.metadata.layout.sections ∧
          (Section.read records.source h layout records.internStrings).outcome = .ok base.1) ∧
        records.reference = bases.flatMap fun base => Records.withCopies base.1 base.2) := by
  obtain ⟨fresh, hsource, hmetadata, hintern⟩ :=
    Records.ensures_start reader.source reader.metadata reader.options.internStrings
      count' records hrecords
  refine ⟨⟨hsource, hmetadata, ?_, hintern⟩, ?_, fresh.run_toList, ?_, ?_, ?_, ?_⟩
  · exact Records.shared_of_start hrecords
  · intro limit start
    rw [Records.run_polls fresh.sound, fresh.remaining_eq]
  · intro h layout s hread
    exact Section.ensures_read records.source h layout records.internStrings 0 s hread
  · intro s base
    cases hkey : base.key? with
    | none =>
        have hnone : s.duplicateKeys base = [] := by
          simp only [Section.duplicateKeys, hkey]
        rw [hnone]
        refine ⟨?_, fun _ hmem => absurd hmem List.not_mem_nil⟩
        simp
    | some key =>
        refine ⟨?_, fun newKey _ => Record.withKey_of_key? hkey newKey⟩
        simp only [Section.duplicateKeys, hkey, CopyTable.duplicatesOf]
        congr 1
        refine List.filter_congr fun c _ => ?_
        simp only [Option.some.injEq, eq_comm]
  · intro i e herror
    exact getElem?_untilError_error herror
  · intro herror
    have hcount := ensures_ofStream stream schema options count reader hopen
    -- Without an error nothing is cut off, so the reference has the items of every section.
    have hall := untilError_eq_self herror
    unfold Records.reference at herror ⊢
    rw [hall] at herror ⊢
    unfold Records.itemsOf at herror ⊢
    rw [hmetadata] at herror ⊢
    cases hh : reader.metadata.header with
    | none =>
        refine ⟨[], ?_, fun _ hmem => absurd hmem List.not_mem_nil, rfl⟩
        unfold recordCount Metadata.recordCount
        rw [hh]
        rfl
    | some h =>
        rw [hh] at herror
        obtain ⟨bases, hlength, hopened, hitems⟩ := Records.exists_bases herror
        refine ⟨bases, hlength.trans hcount, ?_, hitems⟩
        intro base hbase
        obtain ⟨layout, hlayout, hok⟩ := hopened base hbase
        exact ⟨h, layout, rfl, hlayout, hok⟩

def copiedRows : Bytes :=
  Signature.wdb5.magic ++
    ([2, 2, 8, 0, 0, 0, 0, 0, 0, 16, 0, 0, 0x40000, 5, 50, 6, 60, 105, 5, 205, 5] :
      List UInt32).flatMap wordBytes

theorem reference_copiedRows :
    ∃ reader records,
      ((ofStream ⟨copiedRows, 0, none⟩ ⟨[.scalar "id" .u32, .scalar "value" .u32]⟩
        .default).on 0).1 = .ok reader ∧
      (reader.records.on 0).1 = .ok records ∧
      records.reference.map (fun item => item.toOption.bind Record.key?) =
        [some 5, some 105, some 205, some 6] := by
  have hrun : (((ofStream ⟨copiedRows, 0, none⟩ ⟨[.scalar "id" .u32, .scalar "value" .u32]⟩
      .default).on 0).1.toOption.bind fun reader =>
        (reader.records.on 0).1.toOption.map fun records =>
          (records.toList.run 0).1.map fun item => item.toOption.bind Record.key?) =
      some [some 5, some 105, some 205, some 6] := by
    decide +kernel
  rcases hopen : ((ofStream ⟨copiedRows, 0, none⟩ ⟨[.scalar "id" .u32, .scalar "value" .u32]⟩
    .default).on 0).1 with _ | reader
  · rw [hopen] at hrun
    cases hrun
  · rw [hopen] at hrun
    rcases hrecords : (reader.records.on 0).1 with _ | records
    · simp [hrecords, Except.toOption] at hrun
    · refine ⟨reader, records, rfl, hrecords, ?_⟩
      obtain ⟨_, _, hlist, _⟩ := items_eq_reference hopen hrecords
      rw [← hlist 0]
      simpa [hrecords, Except.toOption] using hrun

end Reader

end ClientTable
