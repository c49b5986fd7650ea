import ClientTable.Machine.Sections

namespace ClientTable

namespace Drive

/-- The drive after it has gone to `start` and handed out `count` bytes. -/
def moved (d : Drive) (start count : Nat) : Drive :=
  { d with
    position := start + d.source.origin + count
    handedOut := d.handedOut + d.source.cost count }

/-- The drive after the bytes at `start` have replaced those in the buffer. -/
def filled (d : Drive) (start length : Nat) : Drive :=
  { d.moved start (d.source.found start length).length with buffer := d.source.found start length }

theorem on_seek_of_lt {d : Drive} {start : Nat} (h : start + d.source.origin < positionLimit) :
    (seek start).on d = .ok (.ok (), { d with position := start + d.source.origin }) := by
  unfold seek
  rw [Guarded.on_bind, Guarded.on_get]
  dsimp only
  rw [Checked.add_of_lt h]
  rfl

theorem on_seek_of_le {d : Drive} {start : Nat} (h : positionLimit ≤ start + d.source.origin) :
    (seek start).on d = .error .overflow := by
  have htrap : Checked.add positionLimit start d.source.origin = .error .overflow :=
    if_neg (Nat.not_lt.mpr h)
  unfold seek
  rw [Guarded.on_bind, Guarded.on_get]
  dsimp only
  rw [htrap]
  rfl

theorem found_eq (d : Drive) (start length : Nat) :
    (d.source.bytes.drop (start + d.source.origin)).take length = d.source.found start length := by
  rw [Source.found, Source.suffix_eq]

theorem on_readBlock_of_lt {d : Drive} {start length : Nat}
    (h : start + d.source.origin < positionLimit) :
    (readBlock start length).on d =
      .ok (d.source.block start length, d.moved start (d.source.found start length).length) := by
  unfold readBlock
  rw [Guarded.on_bind_of_ok (on_seek_of_lt h), Guarded.on_bind_of_ok rfl]
  dsimp only
  rw [found_eq]
  unfold Source.block
  split <;> rfl

theorem on_readBlock_of_le {d : Drive} {start : Nat} (length : Nat)
    (h : positionLimit ≤ start + d.source.origin) :
    (readBlock start length).on d = .error .overflow := by
  unfold readBlock
  rw [Guarded.on_bind, on_seek_of_le h]

theorem on_fillBuffer_of_lt {d : Drive} {start length : Nat}
    (h : start + d.source.origin < positionLimit) :
    (fillBuffer start length).on d =
      .ok ((d.source.block start length).map fun _ => (), d.filled start length) := by
  unfold fillBuffer
  rw [Guarded.on_bind_of_ok (on_seek_of_lt h), Guarded.on_bind_of_ok rfl,
    Guarded.on_bind_of_ok rfl, Guarded.on_bind_of_ok rfl, Guarded.on_bind_of_ok rfl]
  dsimp only
  rw [found_eq, List.nil_append]
  unfold Source.block filled
  split <;> rfl

theorem on_fillBuffer_of_le {d : Drive} {start : Nat} (length : Nat)
    (h : positionLimit ≤ start + d.source.origin) :
    (fillBuffer start length).on d = .error .overflow := by
  unfold fillBuffer
  rw [Guarded.on_bind, on_seek_of_le h]

end Drive

namespace Machine

def rowOutcome (s : Section) (m : Metadata) (shared : SharedTables) (mapping : Mapping)
    (row : Row) : Except Error Bytes → Except Trap (Except Error Record × StringTable)
  | .error e => return (.error e, s.strings)
  | .ok data => decodeRow s m shared mapping row data

section

variable {m : Metadata} {shared : SharedTables} {s : Section} {row : Row} {mapping : Mapping}
  {d : Drive}

theorem run_readRow_of_lt (hmapping : m.mappings[s.index]? = some mapping)
    (hlt : row.offset + d.source.origin < positionLimit) :
    (readRow m shared s row).run d =
      (rowOutcome s m shared mapping row (d.source.block row.offset row.length)).map
        fun result => (result, d.filled row.offset row.length) := by
  have hfill : StateT.run (ExceptT.run (Drive.fillBuffer row.offset row.length)) d = _ :=
    Drive.on_fillBuffer_of_lt hlt
  unfold readRow
  rw [hmapping]
  dsimp only
  rw [StateT.run_bind, hfill]
  cases hblock : d.source.block row.offset row.length with
  | error e => rfl
  | ok data =>
      obtain ⟨_, rfl⟩ := Source.block_eq_ok_iff.mp hblock
      change (StateT.lift (decodeRow s m shared mapping row _)).run _ = _
      unfold rowOutcome Drive.filled
      dsimp only
      cases decodeRow s m shared mapping row (d.source.found row.offset row.length) <;> rfl

theorem run_readRow_of_le (hmapping : m.mappings[s.index]? = some mapping)
    (hle : positionLimit ≤ row.offset + d.source.origin) :
    (readRow m shared s row).run d = .error .overflow := by
  have hfill : StateT.run (ExceptT.run (Drive.fillBuffer row.offset row.length)) d = _ :=
    Drive.on_fillBuffer_of_le row.length hle
  unfold readRow
  rw [hmapping]
  dsimp only
  rw [StateT.run_bind, hfill]
  rfl

end

end Machine

end ClientTable
