import ClientTable.Proofs.Iteration

/-!
A file that ends too early is never read as another file. Opening it and going through its records
gives what the whole file gives, up to an error that says where the bytes ended.
-/

namespace ClientTable

/-- The bytes ended before all that was asked for had been read. -/
def Error.IsShort : Error → Prop
  | endOfInput => True
  | shortBlock .. => True
  | _ => False

/-- Items that are the given ones, or that follow them up to a place where the bytes ended. -/
def CutShort (items whole : List Item) : Prop :=
  items = whole ∨ ∃ e before after, e.IsShort ∧ items = before ++ .error e :: after ∧
    before <+: whole

namespace CutShort

variable {items whole items' whole' : List Item}

theorem append (h : CutShort items whole) (h' : CutShort items' whole') :
    CutShort (items ++ items') (whole ++ whole') := by
  rcases h with rfl | ⟨e, before, after, he, rfl, hbefore⟩
  · rcases h' with rfl | ⟨e, before, after, he, rfl, hbefore⟩
    · left
      rfl
    · right
      refine ⟨e, items ++ before, after, he, (List.append_assoc ..).symm, ?_⟩
      exact (List.prefix_append_right_inj items).mpr hbefore
  · right
    refine ⟨e, before, after ++ items', he, List.append_assoc .., ?_⟩
    exact hbefore.trans (List.prefix_append whole whole')

theorem flatMap {α : Type} {f g : α → List Item} (h : ∀ a, CutShort (f a) (g a))
    (parts : List α) : CutShort (parts.flatMap f) (parts.flatMap g) := by
  induction parts with
  | nil =>
      left
      rfl
  | cons a parts ih => exact (h a).append ih

end CutShort

theorem untilError_append_of_mem {items : List Item} {e : Error} (h : .error e ∈ items)
    (more : List Item) : untilError (items ++ more) = untilError items := by
  induction items with
  | nil => cases h
  | cons item items ih =>
      cases item with
      | error _ => rfl
      | ok record =>
          have hmem : .error e ∈ items := by simpa using h
          rw [List.cons_append, untilError, untilError, ih hmem]

theorem untilError_append_of_not_mem {items : List Item} (h : ∀ e, .error e ∉ items)
    (more : List Item) : untilError (items ++ more) = items ++ untilError more := by
  induction items with
  | nil => rfl
  | cons item items ih =>
      cases item with
      | error e => exact absurd (List.mem_cons_self ..) (h e)
      | ok record =>
          rw [List.cons_append, untilError, ih fun e he => h e (List.mem_cons_of_mem _ he),
            List.cons_append]

theorem untilError_of_not_mem {items : List Item} (h : ∀ e, .error e ∉ items) :
    untilError items = items := by
  have happend := untilError_append_of_not_mem h []
  rwa [untilError, List.append_nil] at happend

theorem CutShort.untilError {items whole : List Item} (h : CutShort items whole) :
    untilError items = untilError whole ∨
      ∃ e before, e.IsShort ∧ ClientTable.untilError items = before ++ [.error e] ∧
        before <+: ClientTable.untilError whole := by
  rcases h with rfl | ⟨e, before, after, he, rfl, others, rfl⟩
  · left
    rfl
  · by_cases hmem : ∃ e', .error e' ∈ before
    · obtain ⟨e', hmem⟩ := hmem
      left
      rw [untilError_append_of_mem hmem, untilError_append_of_mem hmem]
    · have hnone : ∀ e', .error e' ∉ before := fun e' he' => hmem ⟨e', he'⟩
      right
      refine ⟨e, before, he, untilError_append_of_not_mem hnone _, ?_⟩
      rw [untilError_append_of_not_mem hnone]
      exact List.prefix_append ..

namespace Source

variable {s t : Source}

/-- A source that holds more bytes at its end reads alike as long as the other has enough. -/
theorem matches_of_suffix (h : ∀ start, ∃ more, t.suffix start = s.suffix start ++ more) :
    Matches Error.IsShort s t where
  block start length := by
    obtain ⟨more, hmore⟩ := h start
    rcases Nat.lt_or_ge (s.suffix start).length length with hlt | hle
    · right
      refine ⟨.shortBlock length start (s.found start length).length, ?_, trivial⟩
      have hfound : (s.found start length).length < length := by
        simp only [found, List.length_take]
        omega
      unfold block
      rw [if_pos hfound]
      rfl
    · left
      have hfound : t.found start length = s.found start length := by
        unfold found
        rw [hmore, List.take_append_of_le_length hle]
      unfold block
      rw [hfound]
  start := by
    intro count count'
    obtain ⟨more, hmore⟩ := h 0
    rw [on_parse, on_parse, hmore]
    rcases Metadata.stable_parseStart (.ofBytes (s.suffix 0)) more with hend | hsame
    · right
      exact ⟨.endOfInput, hend, trivial⟩
    · left
      exact (congrArg Prod.fst hsame).symm

theorem matches_stream (bytes more : Bytes) (origin : Nat) :
    Matches Error.IsShort (stream bytes origin) (stream (bytes ++ more) origin) :=
  matches_of_suffix fun _ => ⟨_, List.drop_append⟩

theorem matches_memory (bytes more : Bytes) :
    Matches Error.IsShort (memory bytes) (memory (bytes ++ more)) :=
  matches_of_suffix fun _ => ⟨_, List.drop_append⟩

end Source

namespace Records

/-- The same records of two files. -/
structure Twins (r t : Records) : Prop where
  source : Source.Matches Error.IsShort r.source t.source
  metadata : r.metadata = t.metadata
  shared : r.shared = t.shared
  internStrings : r.internStrings = t.internStrings

variable {r t : Records}

theorem Twins.rowItems (twins : r.Twins t) (s : Section) (row : Row) :
    CutShort (s.rowItems r.source r.metadata r.shared row)
      (s.rowItems t.source t.metadata t.shared row) := by
  rw [twins.metadata, twins.shared]
  unfold Section.rowItems Section.decoded
  cases t.metadata.mappings[s.index]? with
  | none =>
      left
      rfl
  | some mapping =>
      dsimp only
      rcases twins.source.block row.offset row.length with hsame | ⟨e, hfail, he⟩
      · left
        rw [hsame]
      · right
        rw [hfail]
        exact ⟨e, [], [], he, rfl, List.nil_prefix⟩

theorem Twins.sectionItems (twins : r.Twins t) (h : Header) (layout : SectionLayout) :
    CutShort (r.sectionItems h layout) (t.sectionItems h layout) := by
  unfold Records.sectionItems
  rw [twins.internStrings]
  rcases (Section.matches_read twins.source h layout t.internStrings).outcome_eq_or with
    hsame | ⟨e, hfail, he⟩
  · rw [hsame]
    cases (Section.read t.source h layout t.internStrings).outcome with
    | error e =>
        left
        rfl
    | ok s => exact CutShort.flatMap (twins.rowItems s) s.rows.rows
  · right
    rw [hfail]
    exact ⟨e, [], [], he, rfl, List.nil_prefix⟩

theorem Twins.itemsOf (twins : r.Twins t) (sections : List SectionLayout) :
    CutShort (r.itemsOf sections) (t.itemsOf sections) := by
  unfold Records.itemsOf
  rw [twins.metadata]
  cases t.metadata.header with
  | none =>
      left
      rfl
  | some h => exact CutShort.flatMap (twins.sectionItems h) sections

theorem Twins.reference (twins : r.Twins t) :
    r.reference = t.reference ∨ ∃ e before, e.IsShort ∧
      r.reference = before ++ [.error e] ∧ before <+: t.reference := by
  unfold Records.reference
  rw [twins.metadata]
  exact (twins.itemsOf t.metadata.layout.sections).untilError

/-- All items of the records of a file, or the error of asking for them. -/
def listed (source : Source) (m : Metadata) (intern : Bool) : Except Error (List Item) :=
  (SharedTables.read source m).outcome.map fun shared =>
    (Records.mk source m shared intern m.layout.sections none false).reference

theorem listed_cutShort {source whole : Source} (h : Source.Matches Error.IsShort source whole)
    (m : Metadata) (intern : Bool) :
    listed source m intern = listed whole m intern ∨
      (∃ e, e.IsShort ∧ listed source m intern = .error e) ∨
      ∃ e before items, e.IsShort ∧ listed source m intern = .ok (before ++ [.error e]) ∧
        listed whole m intern = .ok items ∧ before <+: items := by
  unfold listed
  rcases (SharedTables.matches_read h m).outcome_eq_or with hsame | ⟨e, hfail, he⟩
  · rw [hsame]
    cases (SharedTables.read whole m).outcome with
    | error e =>
        left
        rfl
    | ok shared =>
        have twins : Twins (.mk source m shared intern m.layout.sections none false)
            (.mk whole m shared intern m.layout.sections none false) := ⟨h, rfl, rfl, rfl⟩
        rcases twins.reference with hitems | ⟨e, before, he, hitems, hbefore⟩
        · left
          exact congrArg Except.ok hitems
        · right
          right
          exact ⟨e, before, _, he, congrArg Except.ok hitems, rfl, hbefore⟩
  · right
    left
    rw [hfail]
    exact ⟨e, he, rfl⟩

end Records

namespace Reader

/-- What a caller sees of a file: the error of opening it, or its metadata and then the error of
asking for its records, or all their items. -/
def session (stream : Stream) (schema : Schema) (options : Options) :
    Except Error (Metadata × Except Error (List Item)) :=
  match (ofStream stream schema options).on 0 with
  | (.error e, _) => .error e
  | (.ok reader, count) => .ok (reader.metadata,
      match reader.records.on count with
      | (.error e, _) => .error e
      | (.ok records, count) => .ok (records.toList.run count).1)

theorem records_eq_listed (reader : Reader) (count : Nat) :
    (match reader.records.on count with
      | (.error e, _) => Except.error e
      | (.ok records, count) => .ok (records.toList.run count).1) =
      Records.listed reader.source reader.metadata reader.options.internStrings := by
  have hsame := (SharedTables.matches_read reader.source.matches_self reader.metadata).on_eq count
  unfold Records.listed
  rw [← hsame]
  rcases hread : (SharedTables.read reader.source reader.metadata).on count with ⟨x, after⟩
  cases x with
  | error e =>
      have hrecords : reader.records.on count = (.error e, after) :=
        Attempt.on_bind_of_error hread
      rw [hrecords]
      rfl
  | ok shared =>
      have hrecords : reader.records.on count = (.ok (.mk reader.source reader.metadata shared
          reader.options.internStrings reader.metadata.layout.sections none false), after) :=
        Attempt.on_bind_of_ok hread
      rw [hrecords]
      dsimp only
      rw [Records.Fresh.run_toList ⟨rfl, rfl, rfl⟩]
      rfl

theorem session_eq (stream : Stream) (schema : Schema) (options : Options) :
    session stream schema options =
      (Source.ofStream stream options.copyToMemory).outcome.bind fun source =>
        (Metadata.read source schema).outcome.map fun m =>
          (m, Records.listed source m options.internStrings) := by
  unfold session ofStream
  rw [Attempt.on_bind]
  rcases hsource : (Source.ofStream stream options.copyToMemory).on 0 with ⟨_ | source, count⟩
  · rw [Reading.outcome, hsource]
    rfl
  · have hread := (Metadata.matches_read source.matches_self schema).on_eq count
    rw [Reading.outcome, hsource]
    dsimp only [Except.bind]
    rw [Attempt.on_bind, ← hread]
    rcases (Metadata.read source schema).on count with ⟨_ | m, after⟩
    · rfl
    · have hlisted := records_eq_listed ⟨source, m, options⟩ after
      exact congrArg (fun items => Except.ok (m, items)) hlisted

theorem exists_of_session {stream : Stream} {schema : Schema} {options : Options} {m : Metadata}
    {items : Except Error (List Item)} (h : session stream schema options = .ok (m, items)) :
    ∃ source, (Source.ofStream stream options.copyToMemory).outcome = .ok source ∧
      (Metadata.read source schema).outcome = .ok m ∧
      items = Records.listed source m options.internStrings := by
  rw [session_eq] at h
  cases hsource : (Source.ofStream stream options.copyToMemory).outcome with
  | error e =>
      rw [hsource] at h
      cases h
  | ok source =>
      rw [hsource] at h
      change (Metadata.read source schema).outcome.map _ = _ at h
      cases hread : (Metadata.read source schema).outcome with
      | error e =>
          rw [hread] at h
          cases h
      | ok m' =>
          rw [hread] at h
          cases h
          exact ⟨source, rfl, hread, rfl⟩

end Reader

/-- A stream with more bytes at its end. -/
def Stream.extend (stream : Stream) (more : Bytes) : Stream :=
  { stream with bytes := stream.bytes ++ more }

theorem Source.ofStream_extend (stream : Stream) (more : Bytes) (copyToMemory : Bool) :
    (∃ e, (ofStream stream copyToMemory).outcome = .error e ∧
      (ofStream (stream.extend more) copyToMemory).outcome = .error e) ∨
    ∃ source whole, (ofStream stream copyToMemory).outcome = .ok source ∧
      (ofStream (stream.extend more) copyToMemory).outcome = .ok whole ∧
      Matches Error.IsShort source whole := by
  obtain ⟨bytes, position, seekFault⟩ := stream
  cases seekFault with
  | some reason =>
      left
      exact ⟨.notSeekable reason, rfl, rfl⟩
  | none =>
      right
      cases copyToMemory with
      | false => exact ⟨_, _, rfl, rfl, matches_stream bytes more position⟩
      | true =>
          refine ⟨_, _, rfl, rfl, ?_⟩
          change Matches _ (memory (bytes.drop position)) (memory ((bytes ++ more).drop position))
          rw [List.drop_append]
          exact matches_memory _ _

/-- A session with the beginning of a file is the session with the whole file, or it fails because
the bytes ended: when the file is opened, when its records are asked for, or with the last of its
items, and then all that came before agrees. -/
theorem Reader.session_extend (stream : Stream) (more : Bytes) (schema : Schema)
    (options : Options) :
    session stream schema options = session (stream.extend more) schema options ∨
      (∃ e, e.IsShort ∧ session stream schema options = .error e) ∨
      (∃ m e listed, e.IsShort ∧ session stream schema options = .ok (m, .error e) ∧
        session (stream.extend more) schema options = .ok (m, listed)) ∨
      ∃ m e before items, e.IsShort ∧
        session stream schema options = .ok (m, .ok (before ++ [.error e])) ∧
        session (stream.extend more) schema options = .ok (m, .ok items) ∧ before <+: items := by
  rw [session_eq, session_eq]
  rcases Source.ofStream_extend stream more options.copyToMemory with
    ⟨e, hs, ht⟩ | ⟨source, whole, hs, ht, hmatch⟩
  · left
    rw [hs, ht]
  · rw [hs, ht]
    change (Metadata.read source schema).outcome.map _ =
      (Metadata.read whole schema).outcome.map _ ∨ _
    -- The bytes may end in the metadata, else in the shared tables or among the items.
    rcases (Metadata.matches_read hmatch schema).outcome_eq_or with hsame | ⟨e, hfail, he⟩
    · cases hm : (Metadata.read whole schema).outcome with
      | error e =>
          left
          rw [hsame, hm]
          rfl
      | ok m =>
          rw [hm] at hsame
          rcases Records.listed_cutShort hmatch m options.internStrings with
            hlisted | ⟨e, he, hlisted⟩ | ⟨e, before, items, he, hlisted, hitems, hbefore⟩
          · left
            rw [hsame]
            exact congrArg (fun items => Except.ok (m, items)) hlisted
          · right; right; left
            refine ⟨m, e, _, he, ?_, congrArg (Except.map _) hm⟩
            rw [← hlisted]
            exact congrArg (Except.map _) hsame
          · right; right; right
            refine ⟨m, e, before, items, he, ?_, ?_, hbefore⟩
            · rw [← hlisted]
              exact congrArg (Except.map _) hsame
            · rw [← hitems]
              exact congrArg (Except.map _) hm
    · right
      left
      exact ⟨e, he, congrArg (Except.map _) hfail⟩

end ClientTable
