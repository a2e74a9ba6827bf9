/-! # UTF-8

Characters as bytes and back.  Reading goes byte by byte; where the bytes cannot go on to a
character, the ones read so far are given up as one error, and the byte that did not fit is looked
at anew. -/

namespace GrammarLens.Utf8

/-- The bytes of a character. -/
def encodeChar (c : Char) : List UInt8 := String.utf8EncodeChar c

/-- The bytes of a text. -/
def encode (cs : List Char) : List UInt8 := cs.flatMap encodeChar

/-- A character that is not read to its end: how many bytes are to come, the bounds of the next one,
and the bits so far. -/
structure Pending where
  missing : Nat
  low : Nat
  high : Nat
  bits : Nat
deriving DecidableEq, Repr

/-- What a byte brings: characters or errors, and a character that is still to be read. -/
structure Step where
  read : List (Option Char)
  pending : Option Pending
deriving DecidableEq, Repr

/-- What a byte brings between two characters.  The bounds of the second byte leave out what has a
shorter form, the halves of pairs and what is past the last character. -/
def start (byte : UInt8) : Step :=
  let b := byte.toNat
  if b < 0x80 then ⟨[some (Char.ofNat b)], none⟩
  else if b < 0xc2 then ⟨[none], none⟩
  else if b < 0xe0 then ⟨[], some ⟨1, 0x80, 0xbf, b - 0xc0⟩⟩
  else if b < 0xf0 then
    ⟨[], some ⟨2, if b = 0xe0 then 0xa0 else 0x80, if b = 0xed then 0x9f else 0xbf, b - 0xe0⟩⟩
  else if b < 0xf5 then
    ⟨[], some ⟨3, if b = 0xf0 then 0x90 else 0x80, if b = 0xf4 then 0x8f else 0xbf, b - 0xf0⟩⟩
  else ⟨[none], none⟩

/-- What a byte brings inside a character. -/
def resume (p : Pending) (byte : UInt8) : Step :=
  let b := byte.toNat
  if p.low ≤ b ∧ b ≤ p.high then
    let bits := p.bits * 64 + (b - 0x80)
    if p.missing ≤ 1 then ⟨[some (Char.ofNat bits)], none⟩
    else ⟨[], some ⟨p.missing - 1, 0x80, 0xbf, bits⟩⟩
  else ⟨none :: (start byte).read, (start byte).pending⟩

/-- What a byte brings. -/
def step : Option Pending → UInt8 → Step
  | none, byte => start byte
  | some p, byte => resume p byte

/-- Reads bytes; an error stands where the bytes are no characters. -/
def decodeFrom (pending : Option Pending) : List UInt8 → List (Option Char)
  | [] => pending.toList.map fun _ => none
  | byte :: bytes => (step pending byte).read ++ decodeFrom (step pending byte).pending bytes

/-- The text that bytes spell, with a replacement character for each error. -/
def decodeLossy (bytes : List UInt8) : List Char := (decodeFrom none bytes).map (·.getD '�')

/-- The text that bytes spell, if there is no error in them. -/
def decode? (bytes : List UInt8) : Option (List Char) := (decodeFrom none bytes).mapM id

end GrammarLens.Utf8
