import ClientTable.Proofs.Truncation

namespace ClientTable

open Attempt Reading

theorem Reading.Matches.outcome_eq {α : Type} {m n : Reading α}
    (h : Matches (fun _ => False) m n) : m.outcome = n.outcome := by
  rcases h.outcome_eq_or with hsame | ⟨_, _, hfalse⟩
  · exact hsame
  · exact hfalse.elim

theorem Reading.outcome_map {α β : Type} (f : α → β) (m : Reading α) :
    (f <$> m).outcome = m.outcome.map f := by
  rw [map_eq_pure_bind]
  unfold outcome
  rw [on_bind]
  rcases m.on 0 with ⟨_ | a, count⟩ <;> rfl

/-- Sources that hold the same file. -/
def Source.SameFile (s t : Source) : Prop :=
  ∀ start, s.suffix start = t.suffix start

namespace Source

variable {s t : Source}

theorem SameFile.block (h : s.SameFile t) (start length : Nat) :
    s.block start length = t.block start length := by
  unfold Source.block found
  rw [h start]

theorem SameFile.matches (h : s.SameFile t) : Matches (fun _ => False) s t where
  block start length := Or.inl (h.block start length)
  start := by
    intro count count'
    left
    rw [on_parse, on_parse, h 0]

theorem sameFile_stream (before bytes : Bytes) :
    (stream (before ++ bytes) before.length).SameFile (memory bytes) := by
  intro start
  exact List.drop_length_add_append start

theorem exists_ofStream (before bytes : Bytes) (copyToMemory : Bool) :
    ∃ source, (∀ count, ∃ after, (ofStream ⟨before ++ bytes, before.length, none⟩
      copyToMemory).on count = (.ok source, after)) ∧ source.SameFile (memory bytes) := by
  cases copyToMemory with
  | false => exact ⟨_, fun count => ⟨count, rfl⟩, sameFile_stream before bytes⟩
  | true =>
      refine ⟨memory bytes, fun count => ⟨count + bytes.length, ?_⟩, fun _ => rfl⟩
      have hrest : (before ++ bytes).drop before.length = bytes := List.drop_left ..
      change (Except.ok (memory ((before ++ bytes).drop before.length)),
        count + ((before ++ bytes).drop before.length).length) = _
      rw [hrest]

end Source

namespace Section

/-- A section of which no text has been found, and which keeps the texts or does not. -/
def interning (intern : Bool) (s : Section) : Section :=
  { s with strings := .ofBytes s.strings.bytes intern }

variable (source : Source) (layout : SectionLayout)

theorem readStrings_eq_map (records : Segment) (intern : Bool) :
    readStrings source layout records intern =
      (fun strings => (StringTable.ofBytes strings.1.bytes intern, strings.2)) <$>
        readStrings source layout records false := by
  unfold readStrings StringTable.read
  cases layout.find? .stringBlock with
  | none => simp only [map_pure, StringTable.ofBytes]
  | some segment => simp only [map_eq_pure_bind, bind_assoc, pure_bind, StringTable.ofBytes]

theorem read_eq_map (h : Header) (intern : Bool) :
    read source h layout intern = interning intern <$> read source h layout false := by
  unfold read
  cases layout.segments.find? fun segment => segment.kind = .records with
  | none => rfl
  | some records =>
      dsimp only
      rw [readStrings_eq_map source layout records intern]
      simp only [map_eq_pure_bind, bind_assoc, pure_bind, interning]

theorem rowItems_interning {m : Metadata} {shared : SharedTables} {s : Section}
    (hs : s.strings.Keeps s.strings.bytes) (intern : Bool) :
    (s.interning intern).rowItems source m shared = s.rowItems source m shared := by
  refine SameTables.rowItems source m shared ⟨rfl, rfl, rfl, ⟨s.strings.bytes, ?_, hs⟩, rfl, rfl,
    rfl, rfl⟩
  exact StringTable.keeps_ofBytes s.strings.bytes intern

theorem rowItems_of_sameFile {s t : Source} (h : s.SameFile t) (m : Metadata)
    (shared : SharedTables) (opened : Section) :
    opened.rowItems s m shared = opened.rowItems t m shared := by
  funext row
  unfold rowItems decoded
  rw [h.block row.offset row.length]

end Section

namespace Records

theorem sectionItems_eq (r : Records) (h : Header) (layout : SectionLayout) :
    r.sectionItems h layout = sectionItems { r with internStrings := false } h layout := by
  have hfresh := Section.ensures_read r.source h layout false 0
  unfold sectionItems
  rw [Section.read_eq_map, Reading.outcome_map]
  cases hread : (Section.read r.source h layout false).outcome with
  | error e => rfl
  | ok s =>
      have hs := hfresh s hread
      change (s.interning _).rows.rows.flatMap _ = s.rows.rows.flatMap _
      rw [Section.rowItems_interning r.source hs.strings]
      rfl

variable {s t : Source}

theorem sectionItems_of_sameFile (hfile : s.SameFile t) (r : Records) (h : Header)
    (layout : SectionLayout) :
    sectionItems { r with source := s } h layout =
      sectionItems { r with source := t } h layout := by
  have hread := (Section.matches_read hfile.matches h layout r.internStrings).outcome_eq
  unfold sectionItems
  dsimp only
  rw [hread]
  cases (Section.read t h layout r.internStrings).outcome with
  | error e => rfl
  | ok opened => simp only [Section.rowItems_of_sameFile hfile]

theorem listed_of_sameFile (hfile : s.SameFile t) (m : Metadata) (intern : Bool) :
    listed s m intern = listed t m false := by
  unfold listed
  rw [(SharedTables.matches_read hfile.matches m).outcome_eq]
  cases (SharedTables.read t m).outcome with
  | error e => rfl
  | ok shared =>
      refine congrArg Except.ok ?_
      unfold reference itemsOf
      dsimp only
      cases m.header with
      | none => rfl
      | some h =>
          refine congrArg untilError (congrArg (List.flatMap · _) (funext fun layout => ?_))
          rw [sectionItems_eq]
          exact sectionItems_of_sameFile hfile (.mk t m shared false m.layout.sections none false)
            h layout

end Records

namespace Reader

/-- What a caller sees of a file that is opened once for its metadata and once more, from a second
stream, for its records. -/
def sessionAgain (first second : Stream) (schema : Schema) (options optionsAgain : Options) :
    Except Error (Metadata × Except Error (List Item)) :=
  match (ofStream first schema options).on 0 with
  | (.error e, _) => .error e
  | (.ok opened, count) =>
    match (withMetadata second opened.metadata optionsAgain).on count with
    | (.error e, _) => .error e
    | (.ok reader, count) => .ok (reader.metadata,
        match reader.records.on count with
        | (.error e, _) => .error e
        | (.ok records, count) => .ok (records.toList.run count).1)

/-- What a caller sees of a file, from nothing but its bytes. -/
def seen (bytes : Bytes) (schema : Schema) : Except Error (Metadata × Except Error (List Item)) :=
  (Metadata.read (.memory bytes) schema).outcome.map fun m =>
    (m, Records.listed (.memory bytes) m false)

theorem on_ofStream (before bytes : Bytes) (schema : Schema) (options : Options) :
    ∃ source after, source.SameFile (.memory bytes) ∧
      (ofStream ⟨before ++ bytes, before.length, none⟩ schema options).on 0 =
        ((Metadata.read (.memory bytes) schema).outcome.map (.mk source · options), after) := by
  obtain ⟨source, hsource, hfile⟩ := Source.exists_ofStream before bytes options.copyToMemory
  obtain ⟨count, hsource⟩ := hsource 0
  have hmetadata : ((Metadata.read source schema).on count).1 =
      (Metadata.read (.memory bytes) schema).outcome :=
    ((Metadata.matches_read source.matches_self schema).on_eq count).trans
      (Metadata.matches_read hfile.matches schema).outcome_eq
  rw [← hmetadata, ofStream, on_bind_of_ok hsource, on_bind]
  rcases (Metadata.read source schema).on count with ⟨_ | m, after⟩
  · exact ⟨source, after, hfile, rfl⟩
  · exact ⟨source, after, hfile, rfl⟩

theorem session_eq_seen (before bytes : Bytes) (schema : Schema) (options : Options) :
    session ⟨before ++ bytes, before.length, none⟩ schema options = seen bytes schema := by
  obtain ⟨source, count, hfile, hopen⟩ := on_ofStream before bytes schema options
  unfold session seen
  rw [hopen]
  cases (Metadata.read (.memory bytes) schema).outcome with
  | error e => rfl
  | ok m =>
      have hlisted := (records_eq_listed ⟨source, m, options⟩ count).trans
        (Records.listed_of_sameFile hfile m options.internStrings)
      exact congrArg (fun items => Except.ok (m, items)) hlisted

theorem sessionAgain_eq_seen (before beforeAgain bytes : Bytes) (schema : Schema)
    (options optionsAgain : Options) :
    sessionAgain ⟨before ++ bytes, before.length, none⟩
      ⟨beforeAgain ++ bytes, beforeAgain.length, none⟩ schema options optionsAgain =
        seen bytes schema := by
  obtain ⟨_, count, _, hopen⟩ := on_ofStream before bytes schema options
  obtain ⟨again, hagain, hfile⟩ :=
    Source.exists_ofStream beforeAgain bytes optionsAgain.copyToMemory
  unfold sessionAgain seen
  rw [hopen]
  cases (Metadata.read (.memory bytes) schema).outcome with
  | error e => rfl
  | ok m =>
      obtain ⟨after, hagain⟩ := hagain count
      have hreader : (withMetadata ⟨beforeAgain ++ bytes, beforeAgain.length, none⟩ m
          optionsAgain).on count = (.ok ⟨again, m, optionsAgain⟩, after) := on_bind_of_ok hagain
      have hlisted := (records_eq_listed ⟨again, m, optionsAgain⟩ after).trans
        (Records.listed_of_sameFile hfile m optionsAgain.internStrings)
      change (match (withMetadata ⟨beforeAgain ++ bytes, beforeAgain.length, none⟩ m
        optionsAgain).on count with
        | (.error e, _) => _
        | (.ok reader, count) => _) = _
      rw [hreader]
      exact congrArg (fun items => Except.ok (m, items)) hlisted

/-- A file is seen alike wherever in a stream it starts, copied or not, with its texts kept or not,
and also when it is opened once more with the metadata of an earlier opening. -/
theorem session_eq_default (before beforeAgain bytes : Bytes) (schema : Schema)
    (options optionsAgain : Options) :
    session ⟨before ++ bytes, before.length, none⟩ schema options =
        session ⟨bytes, 0, none⟩ schema .default ∧
      sessionAgain ⟨before ++ bytes, before.length, none⟩
        ⟨beforeAgain ++ bytes, beforeAgain.length, none⟩ schema options optionsAgain =
        session ⟨bytes, 0, none⟩ schema .default := by
  have hseen : session ⟨bytes, 0, none⟩ schema .default = seen bytes schema :=
    session_eq_seen [] bytes schema .default
  rw [hseen]
  exact ⟨session_eq_seen before bytes schema options,
    sessionAgain_eq_seen before beforeAgain bytes schema options optionsAgain⟩

end Reader

end ClientTable
