import Mathlib.Tactic.Common
import OperatorChain.Session

/-!
# Reading bytes back

A text that is written as bytes is read back as it was, character by character, and no byte of a
character that is not the line end looks like one.

* `feed_utf8EncodeChar` — the bytes of a character are read as that character.
* `decodeLossy_encode`, `decode?_encode` — so the bytes of a text are read as that text.
* `lineEnd_mem_encode_iff` — the line ends among the bytes are those of the text.
-/

namespace OperatorChain.Utf8

/-! ## One byte -/

theorem toNat_ofNat_of_lt {n : Nat} (h : n < 0x100) : (UInt8.ofNat n).toNat = n := by
  rw [UInt8.toNat_ofNat']
  omega

section Feed

variable {done : Array (Option Char)} {code missing low high n : Nat}

theorem feed_begin {begun : Begun} (hn : n < 0x100) (h : Opening.ofByte n = .sequence begun) :
    Decoder.feed ⟨done, none⟩ (UInt8.ofNat n) = ⟨done, some begun⟩ := by
  rw [← toNat_ofNat_of_lt hn] at h
  rw [Decoder.feed, Decoder.openWith, h]

/-- A byte with six more bits, where others have to follow. -/
theorem feed_continue (hn : n < 0x40) (hlow : low ≤ n + 0x80) (hhigh : n + 0x80 ≤ high)
    (hmissing : missing ≠ 1) :
    Decoder.feed ⟨done, some ⟨code, missing, low, high⟩⟩ (UInt8.ofNat (n + 0x80)) =
      ⟨done, some ⟨code * 64 + n, missing - 1, 0x80, 0xBF⟩⟩ := by
  rw [Decoder.feed]
  dsimp only
  rw [toNat_ofNat_of_lt (by omega), if_pos ⟨hlow, hhigh⟩, if_neg hmissing, Nat.add_sub_cancel]

/-- A byte with the last six bits. -/
theorem feed_complete (hn : n < 0x40) (hlow : low ≤ n + 0x80) (hhigh : n + 0x80 ≤ high) :
    Decoder.feed ⟨done, some ⟨code, 1, low, high⟩⟩ (UInt8.ofNat (n + 0x80)) =
      ⟨done.push (some (Char.ofNat (code * 64 + n))), none⟩ := by
  rw [Decoder.feed]
  dsimp only
  rw [toNat_ofNat_of_lt (by omega), if_pos ⟨hlow, hhigh⟩, if_pos rfl, Nat.add_sub_cancel]

end Feed

/-! ## The first byte of a sequence -/

theorem ofByte_two : ∀ payload < 0x20, 2 ≤ payload →
    Opening.ofByte (payload + 0xC0) = .sequence ⟨payload, 1, 0x80, 0xBF⟩ := by
  decide

theorem ofByte_three : ∀ payload < 0x10,
    Opening.ofByte (payload + 0xE0) =
      .sequence ⟨payload, 2, if payload = 0 then 0xA0 else 0x80,
        if payload = 0xD then 0x9F else 0xBF⟩ := by
  decide

theorem ofByte_four : ∀ payload < 5,
    Opening.ofByte (payload + 0xF0) =
      .sequence ⟨payload, 3, if payload = 0 then 0x90 else 0x80,
        if payload = 4 then 0x8F else 0xBF⟩ := by
  decide

/-! ## One character -/

section Sequences

variable {done : Array (Option Char)} {code : Nat}

theorem foldl_feed_two (hlow : 0x80 ≤ code) (hhigh : code ≤ 0x7FF) :
    [UInt8.ofNat (code / 64 % 0x20 + 0xC0), UInt8.ofNat (code % 0x40 + 0x80)].foldl Decoder.feed
        ⟨done, none⟩ = ⟨done.push (some (Char.ofNat code)), none⟩ := by
  have hopen := ofByte_two (code / 64 % 0x20) (by omega) (by omega)
  have hcode : code / 64 % 0x20 * 64 + code % 0x40 = code := by omega
  simp only [List.foldl_cons, List.foldl_nil]
  rw [feed_begin (by omega) hopen, feed_complete (by omega) (by omega) (by omega), hcode]

theorem foldl_feed_three (hlow : 0x800 ≤ code) (hhigh : code ≤ 0xFFFF)
    (hscalar : code < 0xD800 ∨ 0xDFFF < code) :
    [UInt8.ofNat (code / 4096 % 0x10 + 0xE0), UInt8.ofNat (code / 64 % 0x40 + 0x80),
        UInt8.ofNat (code % 0x40 + 0x80)].foldl Decoder.feed ⟨done, none⟩ =
      ⟨done.push (some (Char.ofNat code)), none⟩ := by
  have hopen := ofByte_three (code / 4096 % 0x10) (by omega)
  have hcode : (code / 4096 % 0x10 * 64 + code / 64 % 0x40) * 64 + code % 0x40 = code := by omega
  simp only [List.foldl_cons, List.foldl_nil]
  rw [feed_begin (by omega) hopen, feed_continue (by omega) (by split <;> omega)
    (by split <;> omega) (by omega), feed_complete (by omega) (by omega) (by omega), hcode]

theorem foldl_feed_four (hlow : 0x10000 ≤ code) (hhigh : code < 0x110000) :
    [UInt8.ofNat (code / 262144 % 0x08 + 0xF0), UInt8.ofNat (code / 4096 % 0x40 + 0x80),
        UInt8.ofNat (code / 64 % 0x40 + 0x80), UInt8.ofNat (code % 0x40 + 0x80)].foldl Decoder.feed
        ⟨done, none⟩ = ⟨done.push (some (Char.ofNat code)), none⟩ := by
  have hopen := ofByte_four (code / 262144 % 0x08) (by omega)
  have hcode : ((code / 262144 % 0x08 * 64 + code / 4096 % 0x40) * 64 + code / 64 % 0x40) * 64 +
      code % 0x40 = code := by
    omega
  simp only [List.foldl_cons, List.foldl_nil]
  rw [feed_begin (by omega) hopen, feed_continue (by omega) (by split <;> omega)
    (by split <;> omega) (by omega), feed_continue (by omega) (by omega) (by omega) (by omega),
    feed_complete (by omega) (by omega) (by omega), hcode]

end Sequences

/-- The bytes of a character, by the size of its number. -/
theorem utf8EncodeChar_eq (c : Char) :
    String.utf8EncodeChar c =
      if c.toNat ≤ 0x7F then [UInt8.ofNat c.toNat]
      else if c.toNat ≤ 0x7FF then
        [UInt8.ofNat (c.toNat / 64 % 0x20 + 0xC0), UInt8.ofNat (c.toNat % 0x40 + 0x80)]
      else if c.toNat ≤ 0xFFFF then
        [UInt8.ofNat (c.toNat / 4096 % 0x10 + 0xE0), UInt8.ofNat (c.toNat / 64 % 0x40 + 0x80),
          UInt8.ofNat (c.toNat % 0x40 + 0x80)]
      else
        [UInt8.ofNat (c.toNat / 262144 % 0x08 + 0xF0), UInt8.ofNat (c.toNat / 4096 % 0x40 + 0x80),
          UInt8.ofNat (c.toNat / 64 % 0x40 + 0x80), UInt8.ofNat (c.toNat % 0x40 + 0x80)] := rfl

/-- **The bytes of a character are read as that character**, whatever has been read before. -/
theorem feed_utf8EncodeChar (c : Char) (done : Array (Option Char)) :
    (String.utf8EncodeChar c).foldl Decoder.feed ⟨done, none⟩ = ⟨done.push (some c), none⟩ := by
  have hscalar : c.toNat < 0xD800 ∨ 0xDFFF < c.toNat ∧ c.toNat < 0x110000 := c.valid
  have hc : (⟨done.push (some c), none⟩ : Decoder) =
      ⟨done.push (some (Char.ofNat c.toNat)), none⟩ := by
    rw [Char.ofNat_toNat]
  rw [hc, utf8EncodeChar_eq]
  generalize c.toNat = code at hscalar ⊢
  split
  · have hopen : Opening.ofByte code = .single (Char.ofNat code) := by
      rw [Opening.ofByte, if_pos (by omega)]
    rw [List.foldl_cons, List.foldl_nil, Decoder.feed, toNat_ofNat_of_lt (by omega),
      Decoder.openWith, hopen]
  · split
    · exact foldl_feed_two (by omega) (by omega)
    · split
      · exact foldl_feed_three (by omega) (by omega) (by omega)
      · exact foldl_feed_four (by omega) (by omega)

/-! ## Whole texts -/

theorem encode_cons (c : Char) (text : List Char) :
    encode (c :: text) = String.utf8EncodeChar c ++ encode text := rfl

theorem encode_append (text text' : List Char) :
    encode (text ++ text') = encode text ++ encode text' :=
  List.flatMap_append

theorem foldl_feed_encode (text : List Char) (done : Array (Option Char)) :
    (encode text).foldl Decoder.feed ⟨done, none⟩ =
      ⟨done ++ (text.map some).toArray, none⟩ := by
  induction text generalizing done with
  | nil => simp [encode]
  | cons c text ih =>
    rw [encode_cons, List.foldl_append, feed_utf8EncodeChar, ih]
    simp

theorem parts_encode (text : List Char) : parts (encode text) = text.map some := by
  rw [parts, Decoder.start, foldl_feed_encode]
  simp [Decoder.finish]

/-- **The bytes of a text are read as that text.** -/
theorem decodeLossy_encode (text : List Char) : decodeLossy (encode text) = text := by
  rw [decodeLossy, parts_encode, List.map_map]
  exact List.map_id text

/-- The bytes of a text are well formed. -/
theorem decode?_encode (text : List Char) : decode? (encode text) = some text := by
  rw [decode?, parts_encode]
  induction text with
  | nil => rfl
  | cons c text ih => simp [List.mapM_cons, ih]

/-! ## Line ends -/

/-- The only character with an ASCII byte among its bytes is the one that this byte stands for. -/
theorem ofNat_mem_utf8EncodeChar_iff {byte : Nat} (h : byte < 0x80) {c : Char} :
    UInt8.ofNat byte ∈ String.utf8EncodeChar c ↔ c.toNat = byte := by
  have hbyte : ∀ n < 0x100, UInt8.ofNat byte = UInt8.ofNat n ↔ n = byte := by
    intro n hn
    rw [← UInt8.toNat_inj, toNat_ofNat_of_lt hn, toNat_ofNat_of_lt (by omega)]
    exact eq_comm
  rw [utf8EncodeChar_eq]
  generalize c.toNat = code
  split
  · rw [List.mem_singleton, hbyte code (by omega)]
  · -- all bytes of a longer sequence are beyond ASCII
    split
    · simp only [List.mem_cons, List.not_mem_nil, or_false]
      rw [hbyte _ (by omega), hbyte _ (by omega)]
      omega
    · split
      · simp only [List.mem_cons, List.not_mem_nil, or_false]
        rw [hbyte _ (by omega), hbyte _ (by omega), hbyte _ (by omega)]
        omega
      · simp only [List.mem_cons, List.not_mem_nil, or_false]
        rw [hbyte _ (by omega), hbyte _ (by omega), hbyte _ (by omega), hbyte _ (by omega)]
        omega

theorem lineEnd_mem_utf8EncodeChar_iff {c : Char} :
    Session.lineEnd ∈ String.utf8EncodeChar c ↔ c = '\n' := by
  have hchar : c = '\n' ↔ c.toNat = 0x0A := Char.toNat_inj.symm
  rw [hchar]
  exact ofNat_mem_utf8EncodeChar_iff (by decide)

/-- The bytes of a text hold a line end where the text does. -/
theorem lineEnd_mem_encode_iff {text : List Char} :
    Session.lineEnd ∈ encode text ↔ '\n' ∈ text := by
  simp only [encode, List.mem_flatMap, lineEnd_mem_utf8EncodeChar_iff, exists_eq_right]

end OperatorChain.Utf8
