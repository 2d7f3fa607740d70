/-!
# UTF-8

Characters as bytes and back.  Bytes need not be well formed, so decoding first cuts them into
parts: characters, and maximal ill-formed parts, that is, the longest beginnings of a sequence that
could still have become a character, or single bytes with which none begins.

* `Utf8.encode` — the bytes of a text.
* `Utf8.parts` — the characters and the ill-formed parts of bytes.
* `Utf8.decodeLossy` — the text with U+FFFD for each ill-formed part.
* `Utf8.decode?` — the text of bytes that have no ill-formed part.
-/

namespace OperatorChain.Utf8

/-! ## Encoding -/

/-- The bytes of a text. -/
def encode (text : List Char) : List UInt8 :=
  text.flatMap String.utf8EncodeChar

/-! ## Decoding -/

/-- The beginning of a sequence of bytes that may become a character. -/
structure Begun where
  /-- The number that the payload bits so far make up. -/
  code : Nat
  /-- How many bytes are missing. -/
  missing : Nat
  /-- The least byte that may come next. -/
  low : Nat
  /-- The greatest byte that may come next. -/
  high : Nat
  deriving DecidableEq, Repr

/-- What a byte does where no sequence has begun. -/
inductive Opening where
  /-- The byte is a character of its own. -/
  | single (c : Char)
  /-- The byte begins a sequence. -/
  | sequence (begun : Begun)
  /-- No character begins with the byte. -/
  | illFormed
  deriving DecidableEq, Repr

/-- The role of a byte where no sequence has begun.  The limits on the second byte keep out
sequences that are longer than need be, surrogates, and numbers above U+10FFFF. -/
def Opening.ofByte (byte : Nat) : Opening :=
  if byte < 0x80 then .single (Char.ofNat byte)
  else if byte < 0xC2 then .illFormed
  else if byte < 0xE0 then .sequence ⟨byte - 0xC0, 1, 0x80, 0xBF⟩
  else if byte = 0xE0 then .sequence ⟨0, 2, 0xA0, 0xBF⟩
  else if byte = 0xED then .sequence ⟨0xD, 2, 0x80, 0x9F⟩
  else if byte < 0xF0 then .sequence ⟨byte - 0xE0, 2, 0x80, 0xBF⟩
  else if byte = 0xF0 then .sequence ⟨0, 3, 0x90, 0xBF⟩
  else if byte < 0xF4 then .sequence ⟨byte - 0xF0, 3, 0x80, 0xBF⟩
  else if byte = 0xF4 then .sequence ⟨4, 3, 0x80, 0x8F⟩
  else .illFormed

/-- What has been read: the parts that are complete, `none` standing for an ill-formed one, and the
sequence that has begun. -/
structure Decoder where
  done : Array (Option Char)
  begun : Option Begun
  deriving Repr

namespace Decoder

/-- Nothing has been read. -/
def start : Decoder :=
  ⟨#[], none⟩

/-- Reads a byte where no sequence has begun. -/
def openWith (done : Array (Option Char)) (byte : Nat) : Decoder :=
  match Opening.ofByte byte with
  | .single c => ⟨done.push (some c), none⟩
  | .sequence begun => ⟨done, some begun⟩
  | .illFormed => ⟨done.push none, none⟩

/-- Reads a byte.  One that cannot continue the sequence ends it as an ill-formed part and is then
read where no sequence has begun. -/
def feed (decoder : Decoder) (byte : UInt8) : Decoder :=
  let byte := byte.toNat
  match decoder with
  | ⟨done, none⟩ => openWith done byte
  | ⟨done, some begun⟩ =>
    if begun.low ≤ byte ∧ byte ≤ begun.high then
      let code := begun.code * 64 + (byte - 0x80)
      if begun.missing = 1 then ⟨done.push (some (Char.ofNat code)), none⟩
      else ⟨done, some ⟨code, begun.missing - 1, 0x80, 0xBF⟩⟩
    else openWith (done.push none) byte

/-- The parts, a sequence that has only begun being ill formed. -/
def finish : Decoder → Array (Option Char)
  | ⟨done, none⟩ => done
  | ⟨done, some _⟩ => done.push none

end Decoder

/-- The characters and, as `none`, the maximal ill-formed parts of the bytes. -/
def parts (bytes : List UInt8) : List (Option Char) :=
  (bytes.foldl Decoder.feed .start).finish.toList

/-- The character that stands for an ill-formed part. -/
def replacement : Char :=
  '\uFFFD'

/-- The text of any bytes, each maximal ill-formed part being replaced. -/
def decodeLossy (bytes : List UInt8) : List Char :=
  (parts bytes).map fun part => part.getD replacement

/-- The text of well-formed bytes. -/
def decode? (bytes : List UInt8) : Option (List Char) :=
  (parts bytes).mapM id

end OperatorChain.Utf8
