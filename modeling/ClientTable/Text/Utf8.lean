import ClientTable.Bytes

/-!
Decoding UTF-8 text that may be damaged. Well-formed sequences give their characters; every maximal
damaged stretch gives one replacement character, and the byte that broke it is looked at afresh. A
byte order mark is a character like any other.
-/

namespace ClientTable.Utf8

/-- A multi-byte sequence that has begun: the scalar value gathered so far, the number of bytes
still missing, and the range its next byte has to lie in. -/
structure Partial where
  point : Nat
  missing : Nat
  low : Nat
  high : Nat
  deriving DecidableEq, Repr

/-- The character that stands for a damaged stretch. -/
def replacement : Char := '\uFFFD'

/-- What a byte does where no sequence has begun: the characters it completes and the sequence it
begins. Overlong forms, surrogates and values past the last scalar are excluded by the range of the
second byte. -/
def lead (b : Nat) : List Char × Option Partial :=
  if b < 0x80 then ([Char.ofNat b], none)
  else if b < 0xC2 then ([replacement], none)
  else if b < 0xE0 then ([], some ⟨b - 0xC0, 1, 0x80, 0xBF⟩)
  else if b = 0xE0 then ([], some ⟨0, 2, 0xA0, 0xBF⟩)
  else if b = 0xED then ([], some ⟨0xD, 2, 0x80, 0x9F⟩)
  else if b < 0xF0 then ([], some ⟨b - 0xE0, 2, 0x80, 0xBF⟩)
  else if b = 0xF0 then ([], some ⟨0, 3, 0x90, 0xBF⟩)
  else if b < 0xF4 then ([], some ⟨b - 0xF0, 3, 0x80, 0xBF⟩)
  else if b = 0xF4 then ([], some ⟨4, 3, 0x80, 0x8F⟩)
  else ([replacement], none)

/-- What a byte does after the sequence `p` has begun. -/
def Partial.feed (p : Partial) (b : Nat) : List Char × Option Partial :=
  if p.low ≤ b ∧ b ≤ p.high then
    let point := p.point * 64 + (b - 0x80)
    if p.missing = 1 then ([Char.ofNat point], none)
    else ([], some ⟨point, p.missing - 1, 0x80, 0xBF⟩)
  else
    let (chars, next) := lead b
    (replacement :: chars, next)

/-- What a byte does, whether or not a sequence has begun. -/
def step (pending : Option Partial) (b : UInt8) : List Char × Option Partial :=
  match pending with
  | none => lead b.toNat
  | some p => p.feed b.toNat

/-- The characters of the bytes that follow an unfinished sequence, if there is one. -/
def decodeFrom : Option Partial → Bytes → List Char
  | none, [] => []
  | some _, [] => [replacement]
  | pending, b :: bs =>
    let (chars, next) := step pending b
    chars ++ decodeFrom next bs

/-- The text of a byte string. -/
def decode (bs : Bytes) : String :=
  String.ofList (decodeFrom none bs)

end ClientTable.Utf8
