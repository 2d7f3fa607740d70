import Mathlib.Data.List.Induction
import OperatorChain.Proofs.Utf8

/-!
# Decoding piece by piece

An ASCII byte ends every sequence that has begun and is read as itself.  So it cuts bytes into two
parts that are decoded independently, whether or not they are well formed; and a line feed is read
only where its byte stands.

* `Decoder.feed_after` — what is complete has no bearing on what is read next.
* `Begun.BeyondAscii`, `Decoder.BeyondAscii` — a sequence that has begun is not about ASCII.
* `BeyondAscii.feed_ascii`, `BeyondAscii.newline_mem_feed` — what becomes of ASCII bytes.
* `decodeLossy_append_cons`, `lineEnd_mem_of_newline_mem` — the same, said of whole inputs.
-/

namespace OperatorChain

namespace Utf8

/-! ## What a decoder keeps -/

namespace Decoder

/-- The decoder with complete parts in front of those that it has. -/
def after (earlier : Array (Option Char)) (decoder : Decoder) : Decoder :=
  ⟨earlier ++ decoder.done, decoder.begun⟩

/-- **What is complete has no bearing on what is read next.** -/
theorem feed_after (earlier : Array (Option Char)) (decoder : Decoder) (byte : UInt8) :
    (decoder.after earlier).feed byte = (decoder.feed byte).after earlier := by
  have hopen : ∀ done : Array (Option Char),
      openWith (earlier ++ done) byte.toNat = (openWith done byte.toNat).after earlier := by
    intro done
    unfold openWith
    split <;> simp [after]
  obtain ⟨done, begun⟩ := decoder
  cases begun with
  | none => exact hopen done
  | some begun =>
    simp only [after, feed]
    split
    · split <;> simp
    · rw [← Array.append_push, hopen]
      rfl

theorem foldl_feed_after (earlier : Array (Option Char)) (decoder : Decoder) (bytes : List UInt8) :
    bytes.foldl feed (decoder.after earlier) = (bytes.foldl feed decoder).after earlier := by
  induction bytes generalizing decoder with
  | nil => rfl
  | cons byte bytes ih => rw [List.foldl_cons, feed_after, ih, List.foldl_cons]

theorem finish_after (earlier : Array (Option Char)) (decoder : Decoder) :
    (decoder.after earlier).finish = earlier ++ decoder.finish := by
  obtain ⟨done, begun⟩ := decoder
  cases begun <;> simp [after, finish]

end Decoder

/-! ## ASCII bytes -/

/-- The sequence does not go on with an ASCII byte, and it will not make up an ASCII character. -/
structure Begun.BeyondAscii (begun : Begun) : Prop where
  low : 0x80 ≤ begun.low
  last : begun.missing = 1 → 2 ≤ begun.code
  early : begun.missing ≠ 1 → 1 ≤ begun.code ∨ 0x90 ≤ begun.low

theorem Opening.beyondAscii {byte : Nat} {begun : Begun}
    (h : Opening.ofByte byte = .sequence begun) : begun.BeyondAscii := by
  unfold ofByte at h
  split_ifs at h <;> obtain rfl := Opening.sequence.inj h <;> constructor <;> dsimp only <;> omega

theorem eq_of_char_ofNat_eq_newline {n : Nat} (h : Char.ofNat n = '\n') : n = 0x0A := by
  by_cases hn : n.isValidChar
  · have hchar : Char.ofNat n = Char.ofNatAux n hn := dif_pos hn
    exact congrArg Char.toNat (hchar.symm.trans h)
  · have hchar : Char.ofNat n = '\x00' := dif_neg hn
    rw [hchar] at h
    cases h

theorem Opening.eq_of_single {byte : Nat} {c : Char} (h : Opening.ofByte byte = .single c) :
    c = Char.ofNat byte := by
  unfold ofByte at h
  split_ifs at h
  cases h
  rfl

namespace Decoder

/-- The sequence that has begun, if there is one, is not about ASCII. -/
def BeyondAscii (decoder : Decoder) : Prop :=
  ∀ begun, decoder.begun = some begun → begun.BeyondAscii

theorem beyondAscii_start : start.BeyondAscii := by
  intro begun h
  cases h

theorem beyondAscii_openWith (done : Array (Option Char)) (byte : Nat) :
    (openWith done byte).BeyondAscii := by
  intro begun h
  unfold openWith at h
  split at h
  · cases h
  · next hopening =>
    cases h
    exact Opening.beyondAscii hopening
  · cases h

theorem BeyondAscii.feed {decoder : Decoder} (h : decoder.BeyondAscii) (byte : UInt8) :
    (decoder.feed byte).BeyondAscii := by
  obtain ⟨done, begun⟩ := decoder
  cases begun with
  | none => exact beyondAscii_openWith done byte.toNat
  | some begun =>
    obtain ⟨hlow, -, hearly⟩ := h begun rfl
    simp only [Decoder.feed]
    split
    · next hcontinues =>
      split
      · exact fun _ hnone => by cases hnone
      · next hmissing =>
        have hpayload := hearly hmissing
        intro begun' hsome
        obtain rfl := Option.some.inj hsome
        constructor <;> dsimp only <;> omega
    · exact beyondAscii_openWith _ byte.toNat

theorem beyondAscii_foldl_feed (bytes : List UInt8) : (bytes.foldl feed start).BeyondAscii := by
  induction bytes using List.reverseRecOn with
  | nil => exact beyondAscii_start
  | append_singleton bytes byte ih =>
    rw [List.foldl_append]
    exact ih.feed byte

/-- **An ASCII byte is read as itself**, and the sequence before it ends as an ill-formed part. -/
theorem BeyondAscii.feed_ascii {decoder : Decoder} (h : decoder.BeyondAscii) {byte : UInt8}
    (hbyte : byte.toNat < 0x80) :
    decoder.feed byte = ⟨decoder.finish.push (some (Char.ofNat byte.toNat)), none⟩ := by
  have hopen : ∀ done, openWith done byte.toNat =
      ⟨done.push (some (Char.ofNat byte.toNat)), none⟩ := by
    intro done
    rw [openWith, Opening.ofByte, if_pos hbyte]
  obtain ⟨done, begun⟩ := decoder
  cases begun with
  | none => exact hopen done
  | some begun =>
    have hlow := (h begun rfl).low
    rw [Decoder.feed]
    dsimp only
    rw [if_neg (by omega), hopen]
    rfl

theorem newline_mem_openWith {done : Array (Option Char)} {byte : Nat}
    (h : some '\n' ∈ (openWith done byte).done) : some '\n' ∈ done ∨ byte = 0x0A := by
  unfold openWith at h
  split at h
  · next c hopening =>
    rcases Array.mem_push.1 h with hmem | hc
    · exact .inl hmem
    · have hchar := Opening.eq_of_single hopening
      rw [← Option.some.inj hc] at hchar
      exact .inr (eq_of_char_ofNat_eq_newline hchar.symm)
  · exact .inl h
  · exact .inl (by simpa using h)

/-- A line feed among the parts comes from the byte that stands for it. -/
theorem BeyondAscii.newline_mem_feed {decoder : Decoder} (h : decoder.BeyondAscii) {byte : UInt8}
    (hmem : some '\n' ∈ (decoder.feed byte).done) :
    some '\n' ∈ decoder.done ∨ byte = Session.lineEnd := by
  have hline : byte.toNat = 0x0A → byte = Session.lineEnd := fun hbyte => UInt8.toNat_inj.1 hbyte
  obtain ⟨done, begun⟩ := decoder
  cases begun with
  | none => exact (newline_mem_openWith hmem).imp_right hline
  | some begun =>
    obtain ⟨hlow, hlast, -⟩ := h begun rfl
    simp only [Decoder.feed] at hmem
    split at hmem
    · next hcontinues =>
      split at hmem
      · next hmissing =>
        -- the number of the character is too large for a line feed
        have hcode := hlast hmissing
        rcases Array.mem_push.1 hmem with hmem | hc
        · exact .inl hmem
        · have := eq_of_char_ofNat_eq_newline (Option.some.inj hc).symm
          omega
      · exact .inl hmem
    · rcases newline_mem_openWith hmem with hmem | hbyte
      · exact .inl (by simpa using hmem)
      · exact .inr (hline hbyte)

theorem mem_finish_iff {c : Char} {decoder : Decoder} :
    some c ∈ decoder.finish ↔ some c ∈ decoder.done := by
  obtain ⟨done, begun⟩ := decoder
  cases begun <;> simp [finish]

/-- Whatever is read last leaves a part. -/
theorem finish_feed_ne_empty (decoder : Decoder) (byte : UInt8) :
    (decoder.feed byte).finish ≠ #[] := by
  have hopen : ∀ done : Array (Option Char), (openWith done byte.toNat).finish ≠ #[] := by
    intro done
    unfold openWith
    split <;> simp [finish]
  obtain ⟨done, begun⟩ := decoder
  cases begun with
  | none => exact hopen done
  | some begun =>
    simp only [feed]
    split
    · split <;> simp [finish]
    · exact hopen _

end Decoder

/-! ## Decoding piece by piece -/

theorem parts_append_cons (body rest : List UInt8) {byte : UInt8} (h : byte.toNat < 0x80) :
    parts (body ++ byte :: rest) = parts body ++ some (Char.ofNat byte.toNat) :: parts rest := by
  have hrest : ∀ done : Array (Option Char),
      (⟨done, none⟩ : Decoder) = Decoder.start.after done := by
    intro done
    simp [Decoder.start, Decoder.after]
  rw [parts, List.foldl_append, List.foldl_cons, (Decoder.beyondAscii_foldl_feed body).feed_ascii h,
    hrest, Decoder.foldl_feed_after, Decoder.finish_after]
  simp [parts]

/-- **An ASCII byte cuts bytes into two parts that are decoded independently.** -/
theorem decodeLossy_append_cons (body rest : List UInt8) {byte : UInt8} (h : byte.toNat < 0x80) :
    decodeLossy (body ++ byte :: rest) =
      decodeLossy body ++ Char.ofNat byte.toNat :: decodeLossy rest := by
  rw [decodeLossy, parts_append_cons body rest h, List.map_append, List.map_cons]
  rfl

theorem decodeLossy_append_lineEnd (body rest : List UInt8) :
    decodeLossy (body ++ Session.lineEnd :: rest) = decodeLossy body ++ '\n' :: decodeLossy rest :=
  decodeLossy_append_cons body rest (by decide)

/-- Line feeds come from line ends only. -/
theorem lineEnd_mem_of_newline_mem {bytes : List UInt8} (h : '\n' ∈ decodeLossy bytes) :
    Session.lineEnd ∈ bytes := by
  obtain ⟨part, hpart, hc⟩ := List.mem_map.1 h
  obtain rfl : part = some '\n' := by
    cases part with
    | none => cases hc
    | some c => exact congrArg some hc
  rw [parts, Array.mem_toList_iff, Decoder.mem_finish_iff] at hpart
  clear h hc
  induction bytes using List.reverseRecOn with
  | nil => cases hpart with | _ h => cases h
  | append_singleton bytes byte ih =>
    rw [List.foldl_append] at hpart
    rcases (Decoder.beyondAscii_foldl_feed bytes).newline_mem_feed hpart with hmem | rfl
    · exact List.mem_append_left _ (ih hmem)
    · exact List.mem_append_right _ List.mem_cons_self

/-- Bytes are read as a text that is empty only if there are none. -/
theorem decodeLossy_eq_nil_iff {bytes : List UInt8} : decodeLossy bytes = [] ↔ bytes = [] := by
  cases bytes using List.reverseRecOn with
  | nil => exact iff_of_true rfl rfl
  | append_singleton bytes byte =>
    have hne := Decoder.finish_feed_ne_empty (bytes.foldl Decoder.feed .start) byte
    simp [decodeLossy, parts, List.foldl_append, hne]

/-- **Either bytes are well formed** and both ways of reading them agree, or the replacement
character is among what is read. -/
theorem decode?_eq_or (bytes : List UInt8) :
    decode? bytes = some (decodeLossy bytes) ∨
      decode? bytes = none ∧ replacement ∈ decodeLossy bytes := by
  unfold decode? decodeLossy
  induction parts bytes with
  | nil => exact .inl rfl
  | cons part parts ih =>
    cases part with
    | none => exact .inr ⟨rfl, List.mem_cons_self⟩
    | some c =>
      rcases ih with h | ⟨h, hmem⟩
      · exact .inl (by simp [List.mapM_cons, h])
      · exact .inr ⟨by simp [List.mapM_cons, h], List.mem_cons_of_mem _ hmem⟩

end Utf8

end OperatorChain
