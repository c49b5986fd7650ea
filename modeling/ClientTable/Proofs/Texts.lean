import ClientTable.Lookup.StringTable
import ClientTable.Proofs.Writing

namespace ClientTable

namespace Utf8

def encode (text : String) : Bytes :=
  text.toList.flatMap String.utf8EncodeChar

theorem decodeFrom_none_cons (b : UInt8) (behind : Bytes) :
    decodeFrom none (b :: behind) =
      (lead b.toNat).1 ++ decodeFrom (lead b.toNat).2 behind := by
  rw [decodeFrom]
  rfl

theorem decodeFrom_some_cons (p : Partial) (b : UInt8) (behind : Bytes) :
    decodeFrom (some p) (b :: behind) =
      (p.feed b.toNat).1 ++ decodeFrom (p.feed b.toNat).2 behind := by
  rw [decodeFrom]
  rfl

theorem toNat_ofNat {n : Nat} (h : n < 256) : (UInt8.ofNat n).toNat = n :=
  UInt8.toNat_ofNat_of_lt' h

theorem decodeFrom_last {point low high m : Nat} (h : low ≤ m + 0x80 ∧ m + 0x80 ≤ high)
    (hsmall : m < 64) (behind : Bytes) :
    decodeFrom (some ⟨point, 1, low, high⟩) (UInt8.ofNat (m + 0x80) :: behind) =
      Char.ofNat (point * 64 + m) :: decodeFrom none behind := by
  have hfeed : Partial.feed ⟨point, 1, low, high⟩ (m + 0x80) =
      ([Char.ofNat (point * 64 + m)], none) := by
    rw [Partial.feed, if_pos h, if_pos rfl, Nat.add_sub_cancel]
  rw [decodeFrom_some_cons, toNat_ofNat (by omega), hfeed]
  rfl

theorem decodeFrom_next {point missing low high m : Nat}
    (h : low ≤ m + 0x80 ∧ m + 0x80 ≤ high) (hsmall : m < 64) (behind : Bytes) :
    decodeFrom (some ⟨point, missing + 2, low, high⟩) (UInt8.ofNat (m + 0x80) :: behind) =
      decodeFrom (some ⟨point * 64 + m, missing + 1, 0x80, 0xBF⟩) behind := by
  have hmore : ¬ missing + 2 = 1 := by omega
  have hfeed : Partial.feed ⟨point, missing + 2, low, high⟩ (m + 0x80) =
      ([], some ⟨point * 64 + m, missing + 1, 0x80, 0xBF⟩) := by
    rw [Partial.feed, if_pos h, if_neg hmore, Nat.add_sub_cancel]
    rfl
  rw [decodeFrom_some_cons, toNat_ofNat (by omega), hfeed]
  rfl

theorem lead_of_lt {b : Nat} (h : b < 0x80) : lead b = ([Char.ofNat b], none) :=
  if_pos h

theorem lead_two {n : Nat} (hlow : 2 ≤ n) (hhigh : n < 32) :
    lead (n + 0xC0) = ([], some ⟨n, 1, 0x80, 0xBF⟩) := by
  have hascii : ¬ n + 0xC0 < 0x80 := by omega
  have hoverlong : ¬ n + 0xC0 < 0xC2 := by omega
  have hpair : n + 0xC0 < 0xE0 := by omega
  rw [lead, if_neg hascii, if_neg hoverlong, if_pos hpair, Nat.add_sub_cancel]

/-- The second byte of a sequence of three is restricted behind two of the lead bytes, so that it
excludes overlong forms and surrogates. -/
theorem lead_three {n : Nat} (h : n < 16) :
    ∃ low high, lead (n + 0xE0) = ([], some ⟨n, 2, low, high⟩) ∧
      ∀ m < 64, (n = 0 → 32 ≤ m) → (n = 13 → m < 32) →
        low ≤ m + 0x80 ∧ m + 0x80 ≤ high := by
  have hascii : ¬ n + 0xE0 < 0x80 := by omega
  have hoverlong : ¬ n + 0xE0 < 0xC2 := by omega
  have hpair : ¬ n + 0xE0 < 0xE0 := by omega
  by_cases hfirst : n = 0
  · subst hfirst
    refine ⟨0xA0, 0xBF, rfl, fun m hm hlow _ => ?_⟩
    have hbound := hlow rfl
    omega
  · by_cases hsurrogate : n = 13
    · subst hsurrogate
      refine ⟨0x80, 0x9F, rfl, fun m _ _ hhigh => ?_⟩
      have hbound := hhigh rfl
      omega
    · have hzero : ¬ n + 0xE0 = 0xE0 := by omega
      have hother : ¬ n + 0xE0 = 0xED := by omega
      have htriple : n + 0xE0 < 0xF0 := by omega
      refine ⟨0x80, 0xBF, ?_, fun m _ _ _ => by omega⟩
      rw [lead, if_neg hascii, if_neg hoverlong, if_neg hpair, if_neg hzero, if_neg hother,
        if_pos htriple, Nat.add_sub_cancel]

/-- The second byte of a sequence of four is restricted behind the first and the last lead byte, so
that it excludes overlong forms and values past the last scalar. -/
theorem lead_four {n : Nat} (h : n ≤ 4) :
    ∃ low high, lead (n + 0xF0) = ([], some ⟨n, 3, low, high⟩) ∧
      ∀ m < 64, (n = 0 → 16 ≤ m) → (n = 4 → m < 16) →
        low ≤ m + 0x80 ∧ m + 0x80 ≤ high := by
  have hcases : n = 0 ∨ (0 < n ∧ n < 4) ∨ n = 4 := by omega
  rcases hcases with rfl | ⟨hpositive, hmiddle⟩ | rfl
  · refine ⟨0x90, 0xBF, rfl, fun m hm hlow _ => ?_⟩
    have hbound := hlow rfl
    omega
  · have hascii : ¬ n + 0xF0 < 0x80 := by omega
    have hoverlong : ¬ n + 0xF0 < 0xC2 := by omega
    have hpair : ¬ n + 0xF0 < 0xE0 := by omega
    have hfirst : ¬ n + 0xF0 = 0xE0 := by omega
    have hsurrogate : ¬ n + 0xF0 = 0xED := by omega
    have htriple : ¬ n + 0xF0 < 0xF0 := by omega
    have hzero : ¬ n + 0xF0 = 0xF0 := by omega
    have hquadruple : n + 0xF0 < 0xF4 := by omega
    refine ⟨0x80, 0xBF, ?_, fun m _ _ _ => by omega⟩
    rw [lead, if_neg hascii, if_neg hoverlong, if_neg hpair, if_neg hfirst, if_neg hsurrogate,
      if_neg htriple, if_neg hzero, if_pos hquadruple, Nat.add_sub_cancel]
  · refine ⟨0x80, 0x8F, rfl, fun m _ _ hhigh => ?_⟩
    have hbound := hhigh rfl
    omega

/-- The bytes of a character give it back, and nothing is left unfinished behind them. -/
theorem decodeFrom_encodeChar (c : Char) (behind : Bytes) :
    decodeFrom none (String.utf8EncodeChar c ++ behind) = c :: decodeFrom none behind := by
  have hchar : Char.ofNat c.val.toNat = c := Char.ofNat_toNat c
  have hscalar : c.val.toNat < 0xD800 ∨ 0xDFFF < c.val.toNat ∧ c.val.toNat < 0x110000 := c.valid
  unfold String.utf8EncodeChar
  generalize c.val.toNat = v at hchar hscalar ⊢
  dsimp only
  by_cases hone : v ≤ 0x7F
  · rw [if_pos hone, List.singleton_append, decodeFrom_none_cons, toNat_ofNat (by omega),
      lead_of_lt (by omega), hchar]
    rfl
  rw [if_neg hone]
  by_cases htwo : v ≤ 0x7FF
  · have hfirst : v / 64 % 0x20 = v / 64 := Nat.mod_eq_of_lt (by omega)
    have hwhole : v / 64 * 64 + v % 64 = v := Nat.div_add_mod' v 64
    rw [if_pos htwo, hfirst, List.cons_append, List.singleton_append, decodeFrom_none_cons,
      toNat_ofNat (by omega), lead_two (by omega) (by omega), List.nil_append,
      decodeFrom_last (by omega) (by omega), hwhole, hchar]
  rw [if_neg htwo]
  by_cases hthree : v ≤ 0xFFFF
  · have hfirst : v / 4096 % 0x10 = v / 4096 := Nat.mod_eq_of_lt (by omega)
    have hwhole : (v / 4096 * 64 + v / 64 % 64) * 64 + v % 64 = v := by omega
    obtain ⟨low, high, hlead, hrange⟩ := lead_three (n := v / 4096) (by omega)
    have hsecond := hrange (v / 64 % 64) (by omega) (by omega) (by omega)
    rw [if_pos hthree, hfirst, List.cons_append, List.cons_append, List.singleton_append,
      decodeFrom_none_cons, toNat_ofNat (by omega), hlead, List.nil_append,
      decodeFrom_next hsecond (by omega), decodeFrom_last (by omega) (by omega), hwhole, hchar]
  · have hfirst : v / 262144 % 0x08 = v / 262144 := Nat.mod_eq_of_lt (by omega)
    have hwhole : ((v / 262144 * 64 + v / 4096 % 64) * 64 + v / 64 % 64) * 64 + v % 64 = v := by
      omega
    obtain ⟨low, high, hlead, hrange⟩ := lead_four (n := v / 262144) (by omega)
    have hsecond := hrange (v / 4096 % 64) (by omega) (by omega) (by omega)
    rw [if_neg hthree, hfirst, List.cons_append, List.cons_append, List.cons_append,
      List.singleton_append, decodeFrom_none_cons, toNat_ofNat (by omega), hlead,
      List.nil_append, decodeFrom_next hsecond (by omega), decodeFrom_next (by omega) (by omega),
      decodeFrom_last (by omega) (by omega), hwhole, hchar]

theorem decode_encode (text : String) : decode (encode text) = text := by
  have hchars : ∀ chars : List Char,
      decodeFrom none (chars.flatMap String.utf8EncodeChar) = chars := by
    intro chars
    induction chars with
    | nil => rfl
    | cons c chars ih => rw [List.flatMap_cons, decodeFrom_encodeChar, ih]
  rw [decode, encode, hchars, String.ofList_toList]

end Utf8

theorem terminated?_append {text : Bytes} (h : 0 ∉ text) (behind : Bytes) :
    terminated? (text ++ 0 :: behind) = some text := by
  induction text with
  | nil => rfl
  | cons b text ih =>
      have hfirst : ¬ b = 0 := fun hzero => h (hzero ▸ List.mem_cons_self ..)
      have hrest : 0 ∉ text := fun hmem => h (List.mem_cons_of_mem _ hmem)
      rw [List.cons_append, terminated?, if_neg hfirst, ih hrest]
      rfl

theorem exists_of_terminated? {bytes text : Bytes} (h : terminated? bytes = some text) :
    0 ∉ text ∧ ∃ behind, bytes = text ++ 0 :: behind := by
  induction bytes generalizing text with
  | nil => cases h
  | cons b bytes ih =>
      rw [terminated?] at h
      split at h
      case isTrue hzero =>
        cases h
        exact ⟨nofun, bytes, by rw [hzero, List.nil_append]⟩
      case isFalse hzero =>
        obtain ⟨text, htext, rfl⟩ := Option.map_eq_some_iff.mp h
        obtain ⟨hrest, behind, rfl⟩ := ih htext
        refine ⟨?_, behind, rfl⟩
        rintro (_ | ⟨_, hmem⟩)
        · exact hzero rfl
        · exact hrest hmem

theorem StringTable.textAt_of_append {block before text behind : Bytes} {offset : UInt32}
    (hblock : block = before ++ (text ++ 0 :: behind)) (hoffset : offset.toNat = before.length)
    (htext : 0 ∉ text) : textAt block offset = .ok (Utf8.decode text) := by
  have hinside : ¬ block.length < offset.toNat := by
    rw [hblock, hoffset, List.length_append]
    omega
  unfold textAt
  rw [if_neg hinside, hoffset, hblock, List.drop_left, terminated?_append htext]
  rfl

/-- The text stands in a string block at an offset, with a zero byte behind it and none in it. -/
def StringTable.HasText (block : Bytes) (offset : Nat) (text : String) : Prop :=
  0 ∉ Utf8.encode text ∧ Utf8.encode text ++ [0] <+: block.drop offset

instance (block : Bytes) (offset : Nat) (text : String) :
    Decidable (StringTable.HasText block offset text) :=
  inferInstanceAs (Decidable (_ ∧ _))

theorem StringTable.HasText.offset_lt {block : Bytes} {offset : Nat} {text : String}
    (h : HasText block offset text) : offset < block.length := by
  have hlength := h.2.length_le
  rw [List.length_append, List.length_singleton, List.length_drop] at hlength
  omega

theorem StringTable.HasText.textAt {block : Bytes} {offset : Nat} {text : String}
    (h : HasText block offset text) (hblock : block.length < wordLimit) :
    textAt block (UInt32.ofNat offset) = .ok text := by
  have hoffset := h.offset_lt
  obtain ⟨hzero, behind, hbehind⟩ := h
  rw [List.append_assoc, List.singleton_append] at hbehind
  have hsplit : block = block.take offset ++ (Utf8.encode text ++ 0 :: behind) := by
    rw [hbehind, List.take_append_drop]
  have hstart : (UInt32.ofNat offset).toNat = (block.take offset).length := by
    rw [toNat_ofNat_of_lt (by omega), List.length_take_of_le (by omega)]
  rw [textAt_of_append hsplit hstart hzero, Utf8.decode_encode]

end ClientTable
