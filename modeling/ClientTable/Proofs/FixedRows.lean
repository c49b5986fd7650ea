import ClientTable.Proofs.Placement
import ClientTable.Proofs.Truncation

namespace ClientTable

open Attempt

theorem Source.exists_holds (bytes : Bytes) (copyToMemory : Bool) :
    ∃ source, (ofStream ⟨bytes, 0, none⟩ copyToMemory).outcome = .ok source ∧
      source.Holds 0 bytes := by
  cases copyToMemory with
  | false => exact ⟨_, rfl, List.prefix_rfl⟩
  | true => exact ⟨_, rfl, List.prefix_rfl⟩

theorem Source.Holds.row {source : Source} {start size : Nat} {rows : List Bytes}
    (h : source.Holds start rows.flatten) (hsize : ∀ row ∈ rows, row.length = size) {i : Nat}
    {data : Bytes} (hdata : rows[i]? = some data) :
    source.block (start + i * size) size = .ok data := by
  induction rows generalizing start i with
  | nil => cases hdata
  | cons row rows ih =>
      have hrow : row.length = size := hsize row (List.mem_cons_self ..)
      rw [List.flatten_cons] at h
      cases i with
      | zero =>
          cases hdata
          rw [Nat.zero_mul, Nat.add_zero, ← hrow]
          exact h.left.block
      | succ i =>
          have hposition : start + (i + 1) * size = start + row.length + i * size := by
            rw [Nat.succ_mul, hrow]
            omega
          rw [hposition]
          exact ih h.right (fun other hother => hsize other (List.mem_cons_of_mem _ hother)) hdata

theorem Section.decoded_of_block {source : Source} {m : Metadata} {shared : SharedTables}
    {s : Section} {mapping : Mapping} (hmapping : m.mappings[s.index]? = some mapping) {row : Row}
    {data : Bytes} (hblock : source.block row.offset row.length = .ok data) :
    s.decoded source m shared row = s.decodeRow m shared mapping row data := by
  unfold decoded
  rw [hmapping]
  dsimp only
  rw [hblock]

/-- The items of a section whose rows all decode, each to what has been written for it. -/
theorem Section.items_fixed {source : Source} {m : Metadata} {shared : SharedTables} {s : Section}
    {start size : Nat} {rows : List Bytes} (hrows : s.rows = .fixed start size rows.length 0)
    (hholds : source.Holds start rows.flatten) (hsize : ∀ row ∈ rows, row.length = size)
    {mapping : Mapping} (hmapping : m.mappings[s.index]? = some mapping) {α : Type}
    {items : List α} (hlength : rows.length = items.length) {record : Nat → α → Record}
    (hdecode : ∀ i data a, rows[i]? = some data → items[i]? = some a →
      (s.decodeRow m shared mapping ⟨i, start + i * size, size⟩ data).1 = .ok (record i a)) :
    s.rows.rows.flatMap (s.rowItems source m shared) =
      items.zipIdx.flatMap fun (a, i) =>
        .ok (record i a) :: (s.duplicateKeys (record i a)).map (record i a).withKey := by
  have hitems : ∀ (i : Nat) (a : α), items[i]? = some a →
      s.rowItems source m shared ⟨i, start + i * size, size⟩ =
        .ok (record i a) :: (s.duplicateKeys (record i a)).map (record i a).withKey := by
    intro i a ha
    have hi : i < rows.length := hlength ▸ (List.getElem?_eq_some_iff.mp ha).1
    have hdata := List.getElem?_eq_getElem hi
    have hdecoded : (s.decoded source m shared ⟨i, start + i * size, size⟩).1 =
        .ok (record i a) := by
      rw [decoded_of_block hmapping (hholds.row hsize hdata)]
      exact hdecode i _ a hdata ha
    unfold rowItems
    rw [hdecoded]
  rw [hrows]
  change ((List.range' 0 rows.length).map _).flatMap _ = _
  rw [List.flatMap_map, ← List.range_eq_range', List.flatMap_def, List.flatMap_def]
  congr 1
  refine List.ext_getElem (by simp [hlength]) ?_
  intro i hleft hright
  have hi : i < items.length := by simpa using hright
  rw [List.getElem_map, List.getElem_map, List.getElem_range, List.getElem_zipIdx, Nat.zero_add]
  exact hitems i items[i] (List.getElem?_eq_getElem hi)

theorem Section.decodeRow_of_values {s : Section} {m : Metadata} {shared : SharedTables}
    {mapping : Mapping} {row : Row} {external : Option UInt32}
    (hkey : s.externalKey row.index = .ok external) {data : Bytes} {values : List Value}
    (hvalues : ((mapping.values (s.context m shared row) external).on
      (.start data s.strings)).1 = .ok values) :
    (s.decodeRow m shared mapping row data).1 = .ok ⟨m.schema, values, mapping.keyField⟩ := by
  unfold decodeRow
  rw [hkey]
  change ((Attempt.on (mapping.values _ external) _).1.map fun values =>
    Record.mk m.schema values mapping.keyField) = _
  rw [hvalues]
  rfl

theorem Section.flatMap_rowItems {source : Source} {m : Metadata} {shared : SharedTables}
    {s : Section} (hcopies : s.copies = .empty) {rows : List Row} {records : List Record}
    (h : List.Forall₂ (fun row record => (s.decoded source m shared row).1 = .ok record) rows
      records) : rows.flatMap (s.rowItems source m shared) = records.map .ok := by
  induction h with
  | nil => rfl
  | @cons row record rows records hrow _ ih =>
      have hduplicates : s.duplicateKeys record = [] := by
        unfold duplicateKeys
        rw [hcopies]
        cases record.key? <;> rfl
      have hitems : s.rowItems source m shared row = [.ok record] := by
        unfold rowItems
        rw [hrow]
        dsimp only
        rw [hduplicates]
        rfl
      rw [List.flatMap_cons, hitems, ih]
      rfl

theorem untilError_map_ok (records : List Record) :
    untilError (records.map .ok) = records.map .ok := by
  induction records with
  | nil => rfl
  | cons record records ih => rw [List.map_cons, untilError, ih]

theorem Attempt.Gives.outcome {α : Type} {m : Reading α} {a : α}
    (h : Gives (fun _ => True) m a) : m.outcome = .ok a :=
  (h 0 trivial).1

/-- A session with a file whose sections all open. -/
theorem Reader.session_eq_items {stream : Stream} {schema : Schema} {options : Options}
    {source : Source} (hsource : (Source.ofStream stream options.copyToMemory).outcome = .ok source)
    {m : Metadata} (hm : Gives (fun _ => True) (Metadata.read source schema) m)
    {shared : SharedTables} (hshared : Gives (fun _ => True) (SharedTables.read source m) shared)
    {h : Header} (hheader : m.header = some h) {opened : List Section}
    (hopened : List.Forall₂ (fun layout s =>
      Gives (fun _ => True) (Section.read source h layout options.internStrings) s)
      m.layout.sections opened)
    {records : List Record}
    (hrecords : opened.flatMap (fun s => s.rows.rows.flatMap (s.rowItems source m shared)) =
      records.map .ok) :
    session stream schema options = .ok (m, .ok (records.map .ok)) := by
  have hitems : ∀ r : Records, r.source = source → r.metadata = m → r.shared = shared →
      r.internStrings = options.internStrings →
      r.itemsOf m.layout.sections = records.map .ok := by
    rintro r rfl rfl rfl hintern
    rw [← hintern] at hopened
    rw [← hrecords]
    unfold Records.itemsOf
    rw [hheader]
    clear hrecords hm hshared
    dsimp only
    generalize r.metadata.layout.sections = sections at hopened
    induction hopened with
    | nil => rfl
    | @cons layout s sections opened hread _ ih =>
        have hsection : r.sectionItems h layout =
            s.rows.rows.flatMap (s.rowItems r.source r.metadata r.shared) := by
          unfold Records.sectionItems
          rw [Gives.outcome hread]
        rw [List.flatMap_cons, List.flatMap_cons, hsection, ih]
  rw [session_eq, hsource]
  change (Metadata.read source schema).outcome.map _ = _
  rw [hm.outcome]
  change Except.ok (m, (SharedTables.read source m).outcome.map _) = _
  rw [hshared.outcome]
  change Except.ok (m, Except.ok (Records.reference _)) = _
  unfold Records.reference
  rw [hitems _ rfl rfl rfl rfl, untilError_map_ok]

end ClientTable
