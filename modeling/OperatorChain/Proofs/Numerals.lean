import Mathlib.Data.List.Induction
import OperatorChain.Text.Decimal

/-!
# What a numeral is

A numeral is read by one rule and written by another.  To read it is to know its digits: at most one
sign, then one or more ASCII digits, each of which counts ten times as much as the next.  To write
it is to know its value: the canonical digits of the value with any number of zeros before them, and
a sign where it is needed or allowed.  Both rules give the same texts the same values, and the
reader of numerals follows them.

* `Digits`, `Numeral` — the grammar, with the value that each text denotes.
* `Spelling` — all ways of writing a value.
* `readInteger?_eq_some_iff` — the reader accepts the grammar and answers the value.
* `numeral_iff_spelling` — what is read as a value is what may be written for it.
-/

namespace OperatorChain

/-! ## The grammar -/

/-- One or more ASCII digits, with the number that they denote. -/
inductive Digits : List Char → Nat → Prop
  | one {d : Char} : d.isDigit = true → Digits [d] (d.toNat - '0'.toNat)
  | more {ds : List Char} {n : Nat} {d : Char} : Digits ds n → d.isDigit = true →
      Digits (ds ++ [d]) (10 * n + (d.toNat - '0'.toNat))

/-- At most one sign, then one or more ASCII digits, with the integer that they denote. -/
inductive Numeral : List Char → Int → Prop
  | bare {ds : List Char} {n : Nat} : Digits ds n → Numeral ds n
  | plus {ds : List Char} {n : Nat} : Digits ds n → Numeral ('+' :: ds) n
  | minus {ds : List Char} {n : Nat} : Digits ds n → Numeral ('-' :: ds) (-n)

/-! ## Reading -/

theorem Digits.ne_nil {ds : List Char} {n : Nat} (h : Digits ds n) : ds ≠ [] := by
  cases h with
  | one _ => exact List.cons_ne_nil _ _
  | more _ _ => simp

theorem Digits.isDigit {ds : List Char} {n : Nat} (h : Digits ds n) :
    ∀ c ∈ ds, c.isDigit = true := by
  induction h with
  | one hd =>
    intro c hc
    rwa [List.mem_singleton.1 hc]
  | more _ hd ih =>
    intro c hc
    rcases List.mem_append.1 hc with hc | hc
    · exact ih c hc
    · rwa [List.mem_singleton.1 hc]

theorem Digits.ofDigitChars_eq {ds : List Char} {n : Nat} (h : Digits ds n) :
    Nat.ofDigitChars 10 ds 0 = n := by
  induction h with
  | one _ => simp [Nat.ofDigitChars_cons, Nat.ofDigitChars_nil]
  | more _ _ ih => rw [Nat.ofDigitChars_append, ih, Nat.ofDigitChars_cons, Nat.ofDigitChars_nil]

/-- Digits denote the number that is counted from them. -/
theorem digits_ofDigitChars {ds : List Char} (hne : ds ≠ []) (h : ∀ c ∈ ds, c.isDigit = true) :
    Digits ds (Nat.ofDigitChars 10 ds 0) := by
  induction ds using List.reverseRecOn with
  | nil => exact absurd rfl hne
  | append_singleton ds d ih =>
    have hd := h d (List.mem_append_right _ (List.mem_singleton_self d))
    rw [Nat.ofDigitChars_append, Nat.ofDigitChars_cons, Nat.ofDigitChars_nil]
    by_cases hds : ds = []
    · subst hds
      simpa [Nat.ofDigitChars_nil] using Digits.one hd
    · exact .more (ih hds fun c hc => h c (List.mem_append_left _ hc)) hd

theorem readNatural?_eq_some_iff {ds : List Char} {n : Nat} :
    readNatural? ds = some n ↔ Digits ds n := by
  rw [readNatural?, Option.ite_none_right_eq_some]
  simp only [Bool.and_eq_true, Bool.not_eq_true', List.isEmpty_eq_false_iff, List.all_eq_true,
    Option.some.injEq]
  constructor
  · rintro ⟨⟨hne, hdigits⟩, rfl⟩
    exact digits_ofDigitChars hne hdigits
  · intro h
    exact ⟨⟨h.ne_nil, h.isDigit⟩, h.ofDigitChars_eq⟩

/-- **The reader of numerals follows the grammar.** -/
theorem readInteger?_eq_some_iff {word : List Char} {value : Int} :
    readInteger? word = some value ↔ Numeral word value := by
  constructor
  · intro h
    unfold readInteger? at h
    split at h
    · obtain ⟨n, hn, rfl⟩ := Option.map_eq_some_iff.1 h
      exact .plus (readNatural?_eq_some_iff.1 hn)
    · obtain ⟨n, hn, rfl⟩ := Option.map_eq_some_iff.1 h
      exact .minus (readNatural?_eq_some_iff.1 hn)
    · obtain ⟨n, hn, rfl⟩ := Option.map_eq_some_iff.1 h
      exact .bare (readNatural?_eq_some_iff.1 hn)
  · intro h
    cases h with
    | plus hds => simp [readInteger?, readNatural?_eq_some_iff.2 hds]
    | minus hds => simp [readInteger?, readNatural?_eq_some_iff.2 hds]
    | bare hds =>
      -- a digit is no sign
      unfold readInteger?
      split
      · exact absurd (hds.isDigit '+' (List.mem_cons_self ..)) (by decide)
      · exact absurd (hds.isDigit '-' (List.mem_cons_self ..)) (by decide)
      · simp [readNatural?_eq_some_iff.2 hds]

/-- A word denotes one value at most. -/
theorem Numeral.unique {word : List Char} {value value' : Int} (h : Numeral word value)
    (h' : Numeral word value') : value = value' :=
  Option.some.inj ((readInteger?_eq_some_iff.2 h).symm.trans (readInteger?_eq_some_iff.2 h'))

/-! ## Writing -/

/-- The ways of writing a value: its canonical digits with any number of zeros before them, behind a
minus sign where the value is not positive, and behind no sign or a plus sign where it is not
negative. -/
inductive Spelling : Int → List Char → Prop
  | bare (zeros n : Nat) : Spelling n (List.replicate zeros '0' ++ naturalDecimal n)
  | plus (zeros n : Nat) : Spelling n ('+' :: (List.replicate zeros '0' ++ naturalDecimal n))
  | minus (zeros n : Nat) : Spelling (-n) ('-' :: (List.replicate zeros '0' ++ naturalDecimal n))

/-- A digit is the canonical numeral of its value. -/
theorem naturalDecimal_digit {d : Char} (h : d.isDigit = true) :
    d.toNat - '0'.toNat < 10 ∧ naturalDecimal (d.toNat - '0'.toNat) = [d] := by
  obtain ⟨hlow, hhigh⟩ := Char.isDigit_iff_toNat.1 h
  have hzero : '0'.toNat = 48 := rfl
  have hnine : '9'.toNat = 57 := rfl
  have hlt : d.toNat - '0'.toNat < 10 := by omega
  refine ⟨hlt, ?_⟩
  rw [naturalDecimal, Nat.toDigits_of_lt_base hlt, List.singleton_inj, ← Char.toNat_inj,
    Nat.toNat_digitChar_of_lt_ten hlt]
  omega

/-- Zeros may stand before the canonical digits of a number, and nothing else may. -/
theorem digits_iff_zeros {ds : List Char} {n : Nat} :
    Digits ds n ↔ ∃ zeros, ds = List.replicate zeros '0' ++ naturalDecimal n := by
  constructor
  · intro h
    induction h with
    | one hd => exact ⟨0, (naturalDecimal_digit hd).2.symm⟩
    | @more ds n d _ hd ih =>
      obtain ⟨zeros, rfl⟩ := ih
      obtain ⟨hlt, hdigit⟩ := naturalDecimal_digit hd
      rcases Nat.eq_zero_or_pos n with rfl | hpos
      · -- zeros only, so far: the last of them becomes one of those before the number
        refine ⟨zeros + 1, ?_⟩
        rw [Nat.mul_zero, Nat.zero_add, hdigit, List.replicate_succ']
        rfl
      · refine ⟨zeros, ?_⟩
        rw [List.append_assoc, ← hdigit, naturalDecimal, naturalDecimal, naturalDecimal,
          Nat.toDigits_append_toDigits (by decide) hpos hlt]
  · rintro ⟨zeros, rfl⟩
    have hdigits : ∀ c ∈ List.replicate zeros '0' ++ naturalDecimal n, c.isDigit = true := by
      intro c hc
      rcases List.mem_append.1 hc with hc | hc
      · rw [List.eq_of_mem_replicate hc]
        decide
      · exact isDigit_of_mem_naturalDecimal hc
    have hne : List.replicate zeros '0' ++ naturalDecimal n ≠ [] :=
      List.append_ne_nil_of_right_ne_nil _ (naturalDecimal_ne_nil n)
    have hread := digits_ofDigitChars hne hdigits
    rwa [Nat.ofDigitChars_append, Nat.ofDigitChars_replicate_zero, Nat.mul_zero, naturalDecimal,
      Nat.ofDigitChars_ten_toDigits] at hread

/-- **What is read as a value is what may be written for it.** -/
theorem numeral_iff_spelling {word : List Char} {value : Int} :
    Numeral word value ↔ Spelling value word := by
  constructor
  · intro h
    cases h with
    | bare hds =>
      obtain ⟨zeros, rfl⟩ := digits_iff_zeros.1 hds
      exact .bare zeros _
    | plus hds =>
      obtain ⟨zeros, rfl⟩ := digits_iff_zeros.1 hds
      exact .plus zeros _
    | minus hds =>
      obtain ⟨zeros, rfl⟩ := digits_iff_zeros.1 hds
      exact .minus zeros _
  · intro h
    cases h with
    | bare zeros n => exact .bare (digits_iff_zeros.2 ⟨zeros, rfl⟩)
    | plus zeros n => exact .plus (digits_iff_zeros.2 ⟨zeros, rfl⟩)
    | minus zeros n => exact .minus (digits_iff_zeros.2 ⟨zeros, rfl⟩)

end OperatorChain
