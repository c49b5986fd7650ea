import ClientTable.Proofs.RowOverruns
import ClientTable.Proofs.StringCells

namespace ClientTable

open Attempt

namespace Utf8

/-- Only the null character has a zero byte. -/
theorem zero_mem_encodeChar {c : Char} (h : 0 ∈ String.utf8EncodeChar c) : c = '\x00' := by
  have hbyte {n : Nat} (hpositive : 0 < n) (hsmall : n < 256) : (0 : UInt8) ≠ UInt8.ofNat n := by
    intro hzero
    have hnumber := congrArg UInt8.toNat hzero
    rw [toNat_ofNat hsmall] at hnumber
    exact hpositive.ne hnumber
  by_contra hne
  have hpositive : 0 < c.val.toNat := by
    refine Nat.pos_of_ne_zero fun hzero => hne (Char.ext ?_)
    exact UInt32.toNat_inj.mp hzero
  unfold String.utf8EncodeChar at h
  dsimp only at h
  -- Every byte but that of a sequence of one has its highest bit set.
  split at h
  · exact hbyte hpositive (by omega) (List.mem_singleton.mp h)
  · split at h
    · simp only [List.mem_cons, List.not_mem_nil, or_false] at h
      rcases h with h | h <;> exact hbyte (by omega) (by omega) h
    · split at h <;> simp only [List.mem_cons, List.not_mem_nil, or_false] at h
      · rcases h with h | h | h <;> exact hbyte (by omega) (by omega) h
      · rcases h with h | h | h | h <;> exact hbyte (by omega) (by omega) h

theorem encode_take_append_drop (text : String) (count : Nat) :
    encode (String.ofList (text.toList.take count)) ++
      encode (String.ofList (text.toList.drop count)) = encode text := by
  unfold encode
  rw [String.toList_ofList, String.toList_ofList, ← List.flatMap_append, List.take_append_drop]

theorem zero_notMem_encode {text : String} (h : '\x00' ∉ text.toList) : 0 ∉ encode text := by
  rintro hzero
  obtain ⟨c, hc, hbyte⟩ := List.mem_flatMap.mp hzero
  exact h (zero_mem_encodeChar hbyte ▸ hc)

end Utf8

namespace StringTable

variable {block : Bytes} {offset : UInt32}

/-- What a table of a block answers that has found nothing yet and keeps nothing. -/
def lookUp (block : Bytes) (offset : UInt32) : Except Error String :=
  ((resolve offset).on (ofBytes block false)).1

/-- What a table answers to one query after the other, whether or not they succeed. -/
def answers (t : StringTable) : List UInt32 → List (Except Error String)
  | [] => []
  | offset :: offsets =>
    ((resolve offset).on t).1 :: answers ((resolve offset).on t).2 offsets

theorem lookUp_eq (block : Bytes) (offset : UInt32) : lookUp block offset = textAt block offset :=
  ((keeps_ofBytes block false).on_resolve offset).1

theorem Keeps.answers_eq {t : StringTable} (h : t.Keeps block) (offsets : List UInt32) :
    t.answers offsets = offsets.map (lookUp block) := by
  induction offsets generalizing t with
  | nil => rfl
  | cons offset offsets ih =>
      obtain ⟨hanswer, hafter⟩ := h.on_resolve offset
      rw [answers, ih hafter, hanswer, ← lookUp_eq]
      rfl

/-- The text at the byte, as a cursor reads it that stands there. -/
def readInline (block : Bytes) (offset : UInt32) : Except Error String :=
  (BitRead.text.on ⟨block, 8 * offset.toNat⟩).1

theorem readInline_eq (block : Bytes) (offset : UInt32) :
    readInline block offset =
      match terminated? (block.drop offset.toNat) with
      | some text => .ok (Utf8.decode text)
      | none => .error (.invalid .unterminatedText) := by
  have haligned : 8 * offset.toNat % 8 = 0 := Nat.mul_mod_right 8 _
  have hbyte : 8 * offset.toNat / 8 = offset.toNat := Nat.mul_div_cancel_left _ (by decide)
  rw [readInline, BitRead.on_text_of_aligned haligned, hbyte]
  cases terminated? (block.drop offset.toNat) <;> rfl

theorem exists_text_of_mem (h : 0 ∈ block.drop offset.toNat) :
    ∃ text, lookUp block offset = .ok text ∧ readInline block offset = .ok text := by
  have hinside : ¬ block.length < offset.toNat := by
    intro hlt
    rw [List.drop_eq_nil_of_le (Nat.le_of_lt hlt)] at h
    cases h
  rw [lookUp_eq, readInline_eq, textAt, if_neg hinside, terminated?_of_mem h]
  exact ⟨_, rfl, rfl⟩

theorem refused_of_notMem (h : 0 ∉ block.drop offset.toNat) :
    (∃ fault, lookUp block offset = .error (.invalid fault)) ∧
      ∃ fault, readInline block offset = .error (.invalid fault) := by
  constructor
  · rw [lookUp_eq]
    exact textAt_of_unterminated h
  · rw [readInline_eq, terminated?_eq_none h]
    exact ⟨_, rfl⟩

/-- Whole characters into a text that stands in the block there is the rest of it. -/
theorem lookUp_of_prefix {text : String} (hzero : '\x00' ∉ text.toList)
    (hstands : Utf8.encode text ++ [0] <+: block.drop offset.toNat) {count : Nat} {later : UInt32}
    (hlater : later.toNat =
      offset.toNat + (Utf8.encode (String.ofList (text.toList.take count))).length) :
    lookUp block later = .ok (String.ofList (text.toList.drop count)) := by
  obtain ⟨behind, hbehind⟩ := hstands
  have hinside : offset.toNat ≤ block.length := by
    by_contra hlt
    rw [List.drop_eq_nil_of_le (Nat.le_of_not_le hlt)] at hbehind
    simp at hbehind
  have hblock : block =
      (block.take offset.toNat ++ Utf8.encode (String.ofList (text.toList.take count))) ++
        (Utf8.encode (String.ofList (text.toList.drop count)) ++ 0 :: behind) := by
    rw [List.append_assoc, ← List.append_assoc (Utf8.encode _), Utf8.encode_take_append_drop,
      ← List.singleton_append, ← List.append_assoc (Utf8.encode text), hbehind,
      List.take_append_drop]
  have hrest : '\x00' ∉ (String.ofList (text.toList.drop count)).toList := by
    rw [String.toList_ofList]
    exact fun hmem => hzero (List.mem_of_mem_drop hmem)
  rw [lookUp_eq, textAt_of_append hblock (by rw [List.length_append,
    List.length_take_of_le hinside, hlater]) (Utf8.zero_notMem_encode hrest), Utf8.decode_encode]

/-- A table that keeps what it has found answers every query as if it were the first. There is a
text at a byte if and only if a zero byte ends it, and a cursor that stands there reads the same
one, or is refused like the query. A text that has been written is found, and so is what is left of
it behind any number of its characters. -/
theorem answers_agree (block : Bytes) :
    (∀ offsets, (ofBytes block true).answers offsets = offsets.map (lookUp block)) ∧
    (∀ offset : UInt32,
      ((∃ text, lookUp block offset = .ok text) ↔ 0 ∈ block.drop offset.toNat) ∧
      (∀ text, lookUp block offset = .ok text ↔ readInline block offset = .ok text) ∧
      ((∃ fault, lookUp block offset = .error (.invalid fault)) ↔
        ∃ fault, readInline block offset = .error (.invalid fault))) ∧
    ∀ (offset : UInt32) (text : String), '\x00' ∉ text.toList →
      Utf8.encode text ++ [0] <+: block.drop offset.toNat →
      lookUp block offset = .ok text ∧
      ∀ (count : Nat) (later : UInt32), later.toNat =
          offset.toNat + (Utf8.encode (String.ofList (text.toList.take count))).length →
        lookUp block later = .ok (String.ofList (text.toList.drop count)) := by
  refine ⟨(keeps_ofBytes block true).answers_eq, fun offset => ?_, fun offset text hzero h => ?_⟩
  · by_cases hmem : 0 ∈ block.drop offset.toNat
    · obtain ⟨text, hlookUp, hinline⟩ := exists_text_of_mem hmem
      rw [hlookUp, hinline]
      exact ⟨iff_of_true ⟨text, rfl⟩ hmem, fun _ => Iff.rfl, iff_of_false nofun nofun⟩
    · obtain ⟨⟨fault, hlookUp⟩, other, hinline⟩ := refused_of_notMem hmem
      rw [hlookUp, hinline]
      exact ⟨iff_of_false nofun hmem, fun _ => iff_of_false nofun nofun,
        iff_of_true ⟨fault, rfl⟩ ⟨other, rfl⟩⟩
  · have hwhole : lookUp block offset = .ok (String.ofList (text.toList.drop 0)) :=
      lookUp_of_prefix hzero h rfl
    rw [List.drop_zero, String.ofList_toList] at hwhole
    exact ⟨hwhole, fun _ _ => lookUp_of_prefix hzero h⟩

/-- A text that starts with a byte order mark, and a letter without an end. -/
def markedBlock : Bytes :=
  [0xEF, 0xBB, 0xBF, 0xC3, 0xA9, 0x21, 0, 0x41]

theorem answers_agree_markedBlock :
    '\x00' ∉ "\uFEFFé!".toList ∧ Utf8.encode "\uFEFFé!" ++ [0] <+: markedBlock.drop 0 ∧
      (5 : UInt32).toNat = 0 + (Utf8.encode (String.ofList ("\uFEFFé!".toList.take 2))).length ∧
      lookUp markedBlock 0 = .ok "\uFEFFé!" ∧
      lookUp markedBlock 5 = .ok (String.ofList ("\uFEFFé!".toList.drop 2)) ∧
      (∃ text, lookUp markedBlock 6 = .ok text) ∧ readInline markedBlock 5 = .ok "!" ∧
      (ofBytes markedBlock true).answers [7, 0, 5, 0, 9] =
        [7, 0, 5, 0, 9].map (lookUp markedBlock) := by
  have hzero : '\x00' ∉ "\uFEFFé!".toList := by decide
  have hstands : Utf8.encode "\uFEFFé!" ++ [0] <+: markedBlock.drop (0 : UInt32).toNat := by
    decide +kernel
  have hlater : (5 : UInt32).toNat = (0 : UInt32).toNat +
      (Utf8.encode (String.ofList ("\uFEFFé!".toList.take 2))).length := by
    decide +kernel
  obtain ⟨hanswers, hways, hwritten⟩ := answers_agree markedBlock
  obtain ⟨hwhole, hrest⟩ := hwritten 0 "\uFEFFé!" hzero hstands
  have hlast := hrest 2 5 hlater
  exact ⟨hzero, hstands, hlater, hwhole, hlast, (hways 6).1.mpr (by decide),
    ((hways 5).2.1 "!").mp hlast, hanswers _⟩

end StringTable

end ClientTable
