import ClientTable.Proofs.Opening

namespace ClientTable

/-- The rows that a cursor has not given out. -/
def RowCursor.rows : RowCursor → List Row
  | fixed start stride count next =>
      (List.range' next (count - next)).map fun index => ⟨index, start + index * stride, stride⟩
  | located locations next =>
      (locations.zipIdx next).map fun (l, index) => ⟨index, l.offset.toNat, l.length.toNat⟩

namespace RowCursor

theorem rows_of_next?_eq_none {cursor : RowCursor} (h : cursor.next? = none) :
    cursor.rows = [] := by
  cases cursor with
  | fixed start stride count next =>
      have hend : ¬ next < count := by
        intro hlt
        simp only [next?, if_pos hlt] at h
        cases h
      simp only [rows, Nat.sub_eq_zero_of_le (Nat.le_of_not_lt hend), List.range'_zero,
        List.map_nil]
  | located locations next =>
      cases locations with
      | nil => rfl
      | cons l locations => cases h

theorem rows_of_next?_eq_some {cursor after : RowCursor} {row : Row}
    (h : cursor.next? = some (row, after)) : cursor.rows = row :: after.rows := by
  cases cursor with
  | fixed start stride count next =>
      simp only [next?] at h
      split at h
      case isTrue hlt =>
        cases h
        obtain ⟨left, hleft⟩ : ∃ left, count - next = left + 1 := ⟨count - next - 1, by omega⟩
        have hrest : count - (next + 1) = left := by omega
        simp only [rows, hleft, hrest, List.range'_succ, List.map_cons]
      case isFalse => cases h
  | located locations next =>
      cases locations with
      | nil => cases h
      | cons l locations =>
          cases h
          rfl

end RowCursor

theorem Record.withKey_of_key? {base : Record} {key : UInt32} (h : base.key? = some key)
    (newKey : UInt32) :
    ∃ value copied, base.at? base.keyField = some value ∧ value.withKey newKey = .ok copied ∧
      base.withKey newKey = .ok { base with values := base.values.set base.keyField copied } := by
  unfold Record.key? at h
  obtain ⟨value, hvalue, hkey⟩ := Option.bind_eq_some_iff.mp h
  cases value with
  | array elements => cases hkey
  | scalar s =>
      cases s with
      | int kind bits =>
          refine ⟨_, .scalar (.int kind (BitVec.ofNat kind.bits newKey.toNat)), hvalue, rfl, ?_⟩
          unfold Record.withKey
          rw [hvalue]
          rfl
      | f32 bits => cases hkey
      | f64 bits => cases hkey
      | text text => cases hkey

namespace Section

variable (source : Source) (m : Metadata) (shared : SharedTables)

/-- The record of a row, and the strings of the section after decoding it. -/
def decoded (s : Section) (row : Row) : Except Error Record × StringTable :=
  match m.mappings[s.index]? with
  | none => (.error (.invalid (.missingMapping s.index)), s.strings)
  | some mapping =>
      match source.block row.offset row.length with
      | .error e => (.error e, s.strings)
      | .ok data => s.decodeRow m shared mapping row data

theorem run_readRow (s : Section) (row : Row) (count : Nat) :
    ((s.readRow source m shared row).run count).1 = s.decoded source m shared row := by
  unfold readRow decoded
  cases m.mappings[s.index]? with
  | none => rfl
  | some mapping =>
      dsimp only
      rw [StateT.run_bind, show (source.readBlock row.offset row.length).run.run count = _ from
        source.on_readBlock row.offset row.length count]
      cases source.block row.offset row.length <;> rfl

/-- What a row contributes: its record and the copies of it, or its error. -/
def rowItems (s : Section) (row : Row) : List Item :=
  match (s.decoded source m shared row).1 with
  | .ok base => .ok base :: (s.duplicateKeys base).map base.withKey
  | .error e => [.error e]

/-- What a section still has to give out. -/
def remaining (s : Section) : List Item :=
  (match s.pending with
    | some (base, keys) => keys.map base.withKey
    | none => []) ++
  s.rows.rows.flatMap (s.rowItems source m shared)

/-- Stages of one section: the rows left, the copies pending and the texts kept may differ. -/
structure SameTables (s t : Section) : Prop where
  index : s.index = t.index
  isVariable : s.isVariable = t.isVariable
  hasRelativeStrings : s.hasRelativeStrings = t.hasRelativeStrings
  strings : ∃ bytes, s.strings.Keeps bytes ∧ t.strings.Keeps bytes
  stringBlockStart : s.stringBlockStart = t.stringBlockStart
  keys : s.keys = t.keys
  copies : s.copies = t.copies
  relationships : s.relationships = t.relationships

theorem SameTables.duplicateKeys {s t : Section} (h : s.SameTables t) (base : Record) :
    s.duplicateKeys base = t.duplicateKeys base := by
  unfold Section.duplicateKeys
  rw [h.copies]

/-- A row decodes alike at every stage of its section, and leaves a later stage of it. -/
theorem SameTables.decoded {s t : Section} {bytes : Bytes} (h : s.SameTables t)
    (hs : s.strings.Keeps bytes) (ht : t.strings.Keeps bytes) (row : Row) :
    (s.decoded source m shared row).1 = (t.decoded source m shared row).1 ∧
      (s.decoded source m shared row).2.Keeps bytes := by
  unfold Section.decoded
  rw [h.index]
  cases m.mappings[t.index]? with
  | none => exact ⟨rfl, hs⟩
  | some mapping =>
      dsimp only
      cases source.block row.offset row.length with
      | error e => exact ⟨rfl, hs⟩
      | ok data =>
          have hkey : s.externalKey row.index = t.externalKey row.index := by
            unfold externalKey
            rw [h.keys]
          have hcontext : s.context m shared row = t.context m shared row := by
            unfold context
            rw [h.isVariable, h.hasRelativeStrings, h.stringBlockStart, h.relationships]
          dsimp only [decodeRow]
          rw [hkey, hcontext]
          cases t.externalKey row.index with
          | error e => exact ⟨rfl, hs⟩
          | ok key =>
              have hstart : RowState.Alike bytes (.start data s.strings)
                  (.start data t.strings) := ⟨rfl, rfl, hs, ht⟩
              obtain ⟨hsame, hafter⟩ :=
                ((t.context m shared row).aligns_alike bytes).respects_values mapping key _ _ hstart
              dsimp only
              rw [hsame]
              exact ⟨rfl, hafter.left⟩

theorem SameTables.rowItems {s t : Section} (h : s.SameTables t) :
    s.rowItems source m shared = t.rowItems source m shared := by
  funext row
  obtain ⟨bytes, hs, ht⟩ := h.strings
  unfold Section.rowItems
  rw [(h.decoded source m shared hs ht row).1]
  cases (t.decoded source m shared row).1 with
  | error e => rfl
  | ok base => simp only [h.duplicateKeys base]

theorem run_nextRow (s : Section) (count : Nat) :
    ((s.nextRow source m shared).run count).1 =
      match s.rows.next? with
      | none => (none, { s with pending := none })
      | some (row, rows) =>
          (some (s.decoded source m shared row).1,
            { s with
              rows
              strings := (s.decoded source m shared row).2
              pending := match (s.decoded source m shared row).1 with
                | .ok base => some (base, s.duplicateKeys base)
                | .error _ => none }) := by
  unfold nextRow
  cases s.rows.next? with
  | none => rfl
  | some next =>
      obtain ⟨row, rows⟩ := next
      dsimp only
      rw [← run_readRow source m shared s row count, StateT.run_bind]
      rfl

/-- Reading a row of a section takes the items of the row off what is left. -/
theorem remaining_nextRow {s : Section} {bytes : Bytes} (hs : s.strings.Keeps bytes)
    (hpending : ∀ base key keys, s.pending ≠ some (base, key :: keys)) (count : Nat) :
    s.SameTables ((s.nextRow source m shared).run count).1.2 ∧
      s.remaining source m shared =
        match ((s.nextRow source m shared).run count).1.1 with
        | none => []
        | some item =>
            item :: ((s.nextRow source m shared).run count).1.2.remaining source m shared := by
  rw [run_nextRow source m shared]
  have hnothing : (match s.pending with
      | some (base, keys) => keys.map base.withKey
      | none => []) = [] := by
    cases hp : s.pending with
    | none => rfl
    | some pair =>
        obtain ⟨base, keys⟩ := pair
        cases keys with
        | nil => rfl
        | cons key keys => exact absurd hp (hpending base key keys)
  cases hnext : s.rows.next? with
  | none =>
      refine ⟨⟨rfl, rfl, rfl, ⟨bytes, hs, hs⟩, rfl, rfl, rfl, rfl⟩, ?_⟩
      unfold remaining
      rw [hnothing, RowCursor.rows_of_next?_eq_none hnext]
      rfl
  | some next =>
      obtain ⟨row, rows⟩ := next
      dsimp only
      have hself : s.SameTables s := ⟨rfl, rfl, rfl, ⟨bytes, hs, hs⟩, rfl, rfl, rfl, rfl⟩
      have hkeeps := (hself.decoded source m shared hs hs row).2
      have hlater (pending : Option (Record × List UInt32)) : s.SameTables
          { s with rows, strings := (s.decoded source m shared row).2, pending } :=
        ⟨rfl, rfl, rfl, ⟨bytes, hs, hkeeps⟩, rfl, rfl, rfl, rfl⟩
      refine ⟨hlater _, ?_⟩
      unfold remaining
      rw [hnothing, RowCursor.rows_of_next?_eq_some hnext, List.flatMap_cons, List.nil_append,
        ← (hlater _).rowItems source m shared]
      unfold rowItems
      cases (s.decoded source m shared row).1 <;> rfl

/-- Asking a section for its next item takes the first one off what is left. -/
theorem remaining_next {s : Section} {bytes : Bytes} (hs : s.strings.Keeps bytes) (count : Nat) :
    s.SameTables ((s.next source m shared).run count).1.2 ∧
      s.remaining source m shared =
        match ((s.next source m shared).run count).1.1 with
        | none => []
        | some item =>
            item :: ((s.next source m shared).run count).1.2.remaining source m shared := by
  cases hp : s.pending with
  | none =>
      have hnext : s.next source m shared = s.nextRow source m shared := by
        simp only [next, hp]
      rw [hnext]
      exact remaining_nextRow source m shared hs (by simp [hp]) count
  | some pair =>
      obtain ⟨base, keys⟩ := pair
      cases keys with
      | nil =>
          have hnext : s.next source m shared = s.nextRow source m shared := by
            simp only [next, hp]
          rw [hnext]
          exact remaining_nextRow source m shared hs (by simp [hp]) count
      | cons key keys =>
          have hnext : (s.next source m shared).run count =
              ((some (base.withKey key), { s with pending := some (base, keys) }), count) := by
            simp only [next, hp]
            rfl
          have hlater : s.SameTables { s with pending := some (base, keys) } :=
            ⟨rfl, rfl, rfl, ⟨bytes, hs, hs⟩, rfl, rfl, rfl, rfl⟩
          rw [hnext]
          refine ⟨hlater, ?_⟩
          unfold remaining
          rw [hp, hlater.rowItems source m shared]
          rfl

theorem length_rowItems_le (s : Section) (row : Row) :
    (s.rowItems source m shared row).length ≤ s.copies.size + 1 := by
  unfold rowItems
  cases (s.decoded source m shared row).1 with
  | error e => simp
  | ok base =>
      have hkeys : (s.duplicateKeys base).length ≤ s.copies.size := by
        unfold duplicateKeys
        cases base.key? with
        | none => exact Nat.zero_le _
        | some key =>
            simp only [CopyTable.duplicatesOf, CopyTable.size, List.length_map]
            exact List.length_filter_le _ _
      simpa using hkeys

theorem length_flatMap_rowItems_le (s : Section) (rows : List Row) :
    (rows.flatMap (s.rowItems source m shared)).length ≤ rows.length * (s.copies.size + 1) := by
  induction rows with
  | nil => exact Nat.zero_le _
  | cons row rows ih =>
      have hrow := s.length_rowItems_le source m shared row
      rw [List.flatMap_cons, List.length_append, List.length_cons, Nat.succ_mul]
      omega

namespace Fresh

variable {h : Header} {layout : SectionLayout} {s : Section}

theorem length_rows (fresh : s.Fresh source h layout) :
    s.rows.rows.length = layout.recordCount.toNat := by
  cases hmap : h.hasOffsetMap with
  | false =>
      obtain ⟨area, _, hrows⟩ := fresh.fixed hmap
      rw [hrows]
      simp [RowCursor.rows]
  | true =>
      obtain ⟨segment, used, _, _, hlength, hrows⟩ := fresh.located hmap
      rw [hrows]
      simpa [RowCursor.rows] using hlength

theorem remaining_eq (fresh : s.Fresh source h layout) :
    s.remaining source m shared = s.rows.rows.flatMap (s.rowItems source m shared) := by
  unfold remaining
  rw [fresh.pending]
  rfl

theorem length_remaining_lt (fresh : s.Fresh source h layout) :
    (s.remaining source m shared).length < Records.sectionBound layout := by
  have hitems := s.length_flatMap_rowItems_le source m shared
    s.rows.rows
  rw [fresh.length_rows, fresh.copies] at hitems
  rw [fresh.remaining_eq source m shared]
  unfold Records.sectionBound
  exact Nat.lt_succ_of_le hitems

end Fresh

end Section

end ClientTable
