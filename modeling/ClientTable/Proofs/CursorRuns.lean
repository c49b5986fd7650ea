import ClientTable.Proofs.RowOverruns

/-!
Bit readers under any use, with positions that are machine words. Whatever is asked of a reader one
thing after the other, its cursor stays in the bytes or at their end. What succeeds moves it past
exactly what has been read, and what fails leaves the reader as it was. Only an end that is too
large for a position stops the machine.
-/

namespace ClientTable

open Guarded

namespace BitReader

/-- What can be asked of a reader: a number or a word at a position, a word or a text at the cursor,
or to start again. -/
inductive Operation where
  | numberAt (offset : UInt64) (count : UInt32)
  | wordAt (offset : UInt64) (count : UInt32) (signed : Bool)
  | word (count : UInt32) (signed : Bool)
  | text
  | reset
  deriving DecidableEq, Repr

inductive Answer where
  | number (n : Nat)
  | word (bits : BitVec 64)
  | text (text : String)
  | done
  deriving DecidableEq, Repr

def perform : Operation → Guarded BitReader Answer
  | .numberAt offset count => do
    return .number (← Machine.readAt (← get) offset.toNat count.toNat)
  | .wordAt offset count signed => do
    return .word (← Machine.readWordAt (← get) offset.toNat count.toNat signed)
  | .word count signed => do return .word (← Machine.readWord count.toNat signed)
  | .text => do return .text (← Machine.readText)
  | .reset => do
    modify fun r => { r with cursor := 0 }
    return .done

/-- The reader behind operations one after the other, whether or not they have succeeded. Nothing
goes on after one that traps. -/
def after (r : BitReader) (ops : List Operation) : Except Trap BitReader :=
  ops.foldlM (fun r op => ((perform op).on r).map Prod.snd) r

/-- The bytes from the cursor up to the first zero byte. -/
def textBytes (r : BitReader) : Bytes :=
  (r.data.drop (r.cursor / 8)).takeWhile (· ≠ 0)

/-- Where an operation that succeeds leaves the cursor. -/
def target (r : BitReader) : Operation → Nat
  | .numberAt .. | .wordAt .. => r.cursor
  | .word count _ => r.cursor + count.toNat
  | .text => r.cursor + 8 * (r.textBytes.length + 1)
  | .reset => 0

/-- From 1 to 64 bits are asked for, and their end or that of the bytes is too large for a position.
-/
def PastLimit (r : BitReader) (offset count : Nat) : Prop :=
  (1 ≤ count ∧ count ≤ 64) ∧
    (positionLimit ≤ offset + count ∨ positionLimit ≤ r.data.length * 8)

/-- An operation comes to a position that is too large to be one. -/
def Overflows (r : BitReader) : Operation → Prop
  | .numberAt offset count | .wordAt offset count _ => r.PastLimit offset.toNat count.toNat
  | .word count _ => r.PastLimit r.cursor count.toNat
  | .text => r.cursor % 8 = 0 ∧ 0 ∈ r.data.drop (r.cursor / 8) ∧ positionLimit ≤ r.target .text
  | .reset => False

/-- The cursor is a position in the bytes or at their end. -/
structure IsReaderOf (data : Bytes) (r : BitReader) : Prop where
  bytes : r.data = data
  inside : r.cursor ≤ 8 * data.length
  cursor : r.cursor < positionLimit

/-- What an operation answers, and what becomes of the reader. -/
structure Moves (r : BitReader) (op : Operation) (outcome : Except Error Answer) (t : BitReader) :
    Prop where
  failed : ∀ e, outcome = .error e → t = r ∧ ∃ fault, e = .invalid fault
  succeeded : ∀ answer, outcome = .ok answer → t = { r with cursor := r.target op }
  /-- A word is read at the cursor as it is at that position. -/
  word : ∀ count signed, op = .word count signed →
    (perform (.wordAt (.ofNat r.cursor) count signed)).on r = .ok (outcome, r)
  /-- A text is refused if it starts inside a byte or does not end, and else it is all there. -/
  text : op = .text →
    ((∃ fault, outcome = .error (.invalid fault)) ↔
      r.cursor % 8 ≠ 0 ∨ 0 ∉ r.data.drop (r.cursor / 8)) ∧
    ∀ answer, outcome = .ok answer → answer = .text (Utf8.decode r.textBytes)

variable {data : Bytes} {r t : BitReader} {op : Operation}

section

variable {offset count : Nat}

theorem readAt_of_pastLimit (h : r.PastLimit offset count) :
    (Machine.readAt r offset count).run = .error .overflow := by
  obtain ⟨hcount, hlimit⟩ := h
  unfold Machine.readAt
  rw [if_neg (by omega)]
  by_cases hend : offset + count < positionLimit
  · have hsize : positionLimit ≤ r.data.length * 8 := by omega
    rw [Checked.trap_bind (Checked.add_of_lt hend), Checked.mul, Checked.fit_of_le hsize]
    rfl
  · rw [Checked.add, Checked.fit_of_le (Nat.not_lt.mp hend)]
    rfl

theorem readAt_of_not_pastLimit (h : ¬ r.PastLimit offset count) :
    Machine.readAt r offset count = liftM (r.readAt offset count) := by
  by_cases hcount : count < 1 ∨ 64 < count
  · unfold Machine.readAt readAt
    rw [if_pos hcount, if_pos hcount]
    rfl
  · unfold PastLimit at h
    exact Machine.readAt_eq count (fun _ => by omega) (by omega)

theorem cursor_of_readWordAt {signed : Bool} {bits : BitVec 64}
    (h : ¬ r.PastLimit offset count) (hread : r.readWordAt offset count signed = .ok bits) :
    offset + count < positionLimit := by
  have hcount : ¬ (count < 1 ∨ 64 < count) := by
    intro hcount
    unfold readWordAt readAt at hread
    rw [if_pos hcount] at hread
    cases hread
  unfold PastLimit at h
  omega

end

/-! What an operation comes to, if it does not trap. -/

theorem on_perform_numberAt (r : BitReader) (offset : UInt64) (count : UInt32) :
    (perform (.numberAt offset count)).on r =
      (Machine.readAt r offset.toNat count.toNat).run.map
        fun outcome => (outcome.map .number, r) := by
  rw [perform, on_bind_of_ok (on_get r), on_bind, on_checked]
  rcases (Machine.readAt r offset.toNat count.toNat).run with _ | _ | _ <;> rfl

theorem on_perform_wordAt (r : BitReader) (offset : UInt64) (count : UInt32) (signed : Bool) :
    (perform (.wordAt offset count signed)).on r =
      (Machine.readWordAt r offset.toNat count.toNat signed).run.map
        fun outcome => (outcome.map .word, r) := by
  rw [perform, on_bind_of_ok (on_get r), on_bind, on_checked]
  rcases (Machine.readWordAt r offset.toNat count.toNat signed).run with _ | _ | _ <;> rfl

theorem on_perform_word {count : UInt32} (h : ¬ r.PastLimit r.cursor count.toNat)
    (signed : Bool) :
    (perform (.word count signed)).on r = .ok
      (match r.readWordAt r.cursor count.toNat signed with
      | .ok bits => (.ok (.word bits), { r with cursor := r.cursor + count.toNat })
      | .error e => (.error e, r)) := by
  have hword := Machine.readWordAt_of_readAt (readAt_of_not_pastLimit h) signed
  rw [perform, on_bind, Machine.readWord, on_bind_of_ok (on_get r)]
  cases hread : r.readWordAt r.cursor count.toNat signed with
  | error e =>
      rw [hword, hread]
      rfl
  | ok bits =>
      rw [hread] at hword
      rw [checked_bind hword, trap_bind (Checked.add_of_lt (cursor_of_readWordAt h hread))]
      rfl

theorem on_perform_text_of_ends (haligned : r.cursor % 8 = 0)
    (hzero : 0 ∈ r.data.drop (r.cursor / 8)) :
    (perform .text).on r = (Checked.fit positionLimit (r.target .text)).map
      fun cursor => (.ok (.text (Utf8.decode r.textBytes)), { r with cursor }) := by
  rw [perform, on_bind, Machine.readText, on_bind_of_ok (on_get r)]
  dsimp only
  rw [if_neg (not_not_intro haligned), checked_bind (Machine.terminated?_eq _),
    terminated?_of_mem hzero, target, ← textBytes]
  dsimp only
  -- Three numbers may be too large: the length with its zero byte, its bits, and the new cursor.
  by_cases hlength : r.textBytes.length + 1 < positionLimit
  · rw [trap_bind (Checked.add_of_lt hlength)]
    by_cases hbits : (r.textBytes.length + 1) * 8 < positionLimit
    · rw [trap_bind (Checked.mul_of_lt hbits), Checked.add, Nat.mul_comm _ 8]
      by_cases hend : r.cursor + 8 * (r.textBytes.length + 1) < positionLimit
      · rw [Checked.fit_of_lt hend]
        rfl
      · rw [Checked.fit_of_le (Nat.not_lt.mp hend)]
        rfl
    · rw [Checked.mul, Checked.fit_of_le (Nat.not_lt.mp hbits), Checked.fit_of_le (by omega)]
      rfl
  · rw [Checked.add, Checked.fit_of_le (Nat.not_lt.mp hlength), Checked.fit_of_le (by omega)]
    rfl

theorem on_perform_text_of_refused (h : r.cursor % 8 ≠ 0 ∨ 0 ∉ r.data.drop (r.cursor / 8)) :
    ∃ fault, (perform .text).on r = .ok (.error (.invalid fault), r) := by
  rw [perform, on_bind, Machine.readText, on_bind_of_ok (on_get r)]
  dsimp only
  by_cases haligned : r.cursor % 8 = 0
  · have hnone := terminated?_eq_none (h.resolve_left (not_not_intro haligned))
    rw [if_neg (not_not_intro haligned), checked_bind (Machine.terminated?_eq _), hnone]
    exact ⟨_, rfl⟩
  · rw [if_pos haligned]
    exact ⟨_, rfl⟩

/-- Too large a position stops the machine dead. -/
theorem perform_of_overflows (h : r.Overflows op) : (perform op).on r = .error .overflow := by
  have hword {offset count : Nat} (h : r.PastLimit offset count) (signed : Bool) :
      (Machine.readWordAt r offset count signed).run = .error .overflow :=
    Checked.bind_of_trap (readAt_of_pastLimit h) _
  cases op with
  | numberAt offset count =>
      rw [on_perform_numberAt, readAt_of_pastLimit h]
      rfl
  | wordAt offset count signed =>
      rw [on_perform_wordAt, hword h signed]
      rfl
  | word count signed =>
      refine on_bind_of_trap ?_ _
      rw [Machine.readWord, on_bind_of_ok (on_get r)]
      refine on_bind_of_trap ?_ _
      rw [on_checked, hword h signed]
      rfl
  | text =>
      obtain ⟨haligned, hzero, hend⟩ := h
      rw [on_perform_text_of_ends haligned hzero, Checked.fit_of_le hend]
      rfl
  | reset => exact h.elim

theorem moves_positioned {α : Type} {x : Except Error α} {f : α → Answer}
    (hword : ∀ count signed, op ≠ .word count signed) (htext : op ≠ .text)
    (htarget : r.target op = r.cursor)
    (hfault : Attempt.ThrowsOnly (fun e => ∃ fault, e = .invalid fault) x) :
    r.Moves op (x.map f) r where
  failed e he := by
    cases x with
    | ok _ => cases he
    | error _ =>
        cases he
        exact ⟨rfl, hfault e rfl⟩
  succeeded _ _ := by rw [htarget]
  word count signed hop := absurd hop (hword count signed)
  text hop := absurd hop htext

theorem moves_word {count : UInt32} (hr : r.cursor < positionLimit)
    (h : ¬ r.PastLimit r.cursor count.toNat) (signed : Bool) :
    ∃ outcome t, (perform (.word count signed)).on r = .ok (outcome, t) ∧
      r.Moves (.word count signed) outcome t := by
  have hposition : (UInt64.ofNat r.cursor).toNat = r.cursor := UInt64.toNat_ofNat_of_lt hr
  have hpositioned : (perform (.wordAt (.ofNat r.cursor) count signed)).on r =
      .ok ((r.readWordAt r.cursor count.toNat signed).map .word, r) := by
    rw [on_perform_wordAt, hposition, Machine.readWordAt_of_readAt (readAt_of_not_pastLimit h)]
    rfl
  rw [on_perform_word h]
  cases hread : r.readWordAt r.cursor count.toNat signed with
  | ok bits =>
      refine ⟨_, _, rfl, nofun, fun _ _ => rfl, ?_, nofun⟩
      rintro _ _ ⟨⟩
      rw [hpositioned, hread]
      rfl
  | error e =>
      refine ⟨_, _, rfl, ?_, nofun, ?_, nofun⟩
      · rintro _ ⟨⟩
        exact ⟨rfl, r.throwsOnly_readWordAt_invalid _ _ _ e hread⟩
      · rintro _ _ ⟨⟩
        rw [hpositioned, hread]
        rfl

theorem moves_text (h : ¬ r.Overflows .text) :
    ∃ outcome t, (perform .text).on r = .ok (outcome, t) ∧ r.Moves .text outcome t := by
  by_cases hrefused : r.cursor % 8 ≠ 0 ∨ 0 ∉ r.data.drop (r.cursor / 8)
  · obtain ⟨fault, hfault⟩ := on_perform_text_of_refused hrefused
    refine ⟨_, _, hfault, ?_, nofun, nofun, fun _ => ⟨iff_of_true ⟨fault, rfl⟩ hrefused, nofun⟩⟩
    rintro _ ⟨⟩
    exact ⟨rfl, fault, rfl⟩
  · obtain ⟨haligned, hzero⟩ := not_or.mp hrefused
    have hend : r.target .text < positionLimit :=
      Nat.lt_of_not_le fun hend => h ⟨not_not.mp haligned, not_not.mp hzero, hend⟩
    rw [on_perform_text_of_ends (not_not.mp haligned) (not_not.mp hzero), Checked.fit_of_lt hend]
    refine ⟨_, _, rfl, nofun, fun _ _ => rfl, nofun, fun _ => ⟨iff_of_false nofun hrefused, ?_⟩⟩
    rintro _ ⟨⟩
    rfl

/-- An operation that does not come to too large a position has an answer. -/
theorem moves_perform (hr : r.cursor < positionLimit) (h : ¬ r.Overflows op) :
    ∃ outcome t, (perform op).on r = .ok (outcome, t) ∧ r.Moves op outcome t := by
  cases op with
  | numberAt offset count =>
      rw [on_perform_numberAt, readAt_of_not_pastLimit h]
      exact ⟨_, _, rfl, moves_positioned nofun nofun rfl (r.throwsOnly_readAt_invalid _ _)⟩
  | wordAt offset count signed =>
      rw [on_perform_wordAt, Machine.readWordAt_of_readAt (readAt_of_not_pastLimit h)]
      exact ⟨_, _, rfl, moves_positioned nofun nofun rfl (r.throwsOnly_readWordAt_invalid _ _ _)⟩
  | word count signed => exact moves_word hr h signed
  | text => exact moves_text h
  | reset => exact ⟨_, _, rfl, nofun, fun _ _ => rfl, nofun, nofun⟩

/-- What is read at the cursor is there, up to the position behind it. -/
theorem target_of_perform {answer : Answer} (hr : r.IsReaderOf data)
    (hrun : (perform op).on r = .ok (.ok answer, t)) :
    r.target op ≤ 8 * data.length ∧ r.target op < positionLimit := by
  have hfits : ¬ r.Overflows op := by
    intro hoverflows
    rw [perform_of_overflows hoverflows] at hrun
    cases hrun
  obtain ⟨rfl, hinside, hcursor⟩ := hr
  cases op with
  | numberAt | wordAt => exact ⟨hinside, hcursor⟩
  | word count signed =>
      rw [on_perform_word hfits] at hrun
      cases hread : r.readWordAt r.cursor count.toNat signed with
      | error e =>
          rw [hread] at hrun
          cases hrun
      | ok bits => exact ⟨inside_of_readWordAt hread, cursor_of_readWordAt hfits hread⟩
  | text =>
      by_cases hrefused : r.cursor % 8 ≠ 0 ∨ 0 ∉ r.data.drop (r.cursor / 8)
      · obtain ⟨fault, hfault⟩ := on_perform_text_of_refused hrefused
        rw [hfault] at hrun
        cases hrun
      · obtain ⟨haligned, hzero⟩ := not_or.mp hrefused
        have hlength := length_of_terminated? (terminated?_of_mem (not_not.mp hzero))
        rw [List.length_drop, ← textBytes] at hlength
        refine ⟨?_, Nat.lt_of_not_le fun hend =>
          hfits ⟨not_not.mp haligned, not_not.mp hzero, hend⟩⟩
        rw [target]
        omega
  | reset => exact ⟨Nat.zero_le _, Nat.two_pow_pos 64⟩

/-- No operation moves the cursor out of the bytes. -/
theorem IsReaderOf.perform {outcome : Except Error Answer} (hr : r.IsReaderOf data)
    (hrun : (perform op).on r = .ok (outcome, t)) : t.IsReaderOf data := by
  by_cases hoverflows : r.Overflows op
  · rw [perform_of_overflows hoverflows] at hrun
    cases hrun
  · obtain ⟨_, _, hmoved, hmoves⟩ := moves_perform hr.cursor hoverflows
    rw [hrun] at hmoved
    cases hmoved
    cases outcome with
    | error e =>
        rw [(hmoves.failed e rfl).1]
        exact hr
    | ok answer =>
        obtain ⟨hinside, hcursor⟩ := target_of_perform hr hrun
        rw [hmoves.succeeded answer rfl]
        exact ⟨hr.bytes, hinside, hcursor⟩

/-- Nor do any number of them, one after the other. -/
theorem IsReaderOf.after {ops : List Operation} (hr : r.IsReaderOf data)
    (hrun : r.after ops = .ok t) : t.IsReaderOf data := by
  induction ops generalizing r with
  | nil =>
      cases hrun
      exact hr
  | cons op ops ih =>
      rw [BitReader.after, List.foldlM_cons] at hrun
      cases hstep : (BitReader.perform op).on r with
      | error trap =>
          rw [hstep] at hrun
          cases hrun
      | ok moved =>
          rw [hstep] at hrun
          exact ih (hr.perform hstep) hrun

end BitReader

end ClientTable
