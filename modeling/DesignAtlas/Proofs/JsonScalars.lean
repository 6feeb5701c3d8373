import DesignAtlas.Json.Reader
import DesignAtlas.Json.Writer
import Mathlib.Data.List.Basic
import Mathlib.Tactic.SplitIfs

/-!
# Strings and numbers, written and read

Each code point of a string is written in one of four ways: as it stands, by
a short escape, by one escaped unit, or by two. Whatever way it is, reading it
adds that code point and nothing else (`readCodes_escapedCode`), so a string of
characters is read back (`readString_written`). The two units of a
code point above U+FFFF are joined again, and no other two are, since a
character is never half of a pair.

A whole number is read back from its decimal digits, when what follows does
not go on with the number (`readScalar_int`).
-/

namespace DesignAtlas

namespace Json

variable {opening rest tail : List Char} {codes : List Nat} {n : Nat}

/-! ## Escaped units -/

/-- Padded to one more place, a number is its quotient and its last digit. -/
theorem hexPadded_add_two (width n : Nat) :
    Text.hexPadded (width + 2) n =
      Text.hexPadded (width + 1) (n / 16) ++ [Nat.digitChar (n % 16)] := by
  unfold Text.hexPadded
  rcases Nat.lt_or_ge n 16 with h | h
  · -- the quotient is zero, which still has one digit
    rw [Nat.toDigits_of_lt_base h, Nat.div_eq_of_lt h, Nat.mod_eq_of_lt h, Nat.toDigits_zero]
    simp [List.replicate_succ']
  · rw [Nat.toDigits_of_base_le (by omega) h]
    simp

theorem hexPadded_one (h : n < 16) : Text.hexPadded 1 n = [Nat.digitChar n] := by
  rw [Text.hexPadded, Nat.toDigits_of_lt_base h]
  rfl

/-- The four digits of a unit. -/
theorem hexPadded_four (h : n < 0x10000) :
    Text.hexPadded 4 n = [Nat.digitChar (n / 16 / 16 / 16), Nat.digitChar (n / 16 / 16 % 16),
      Nat.digitChar (n / 16 % 16), Nat.digitChar (n % 16)] := by
  rw [hexPadded_add_two, hexPadded_add_two, hexPadded_add_two, hexPadded_one (by omega)]
  rfl

theorem hexDigit?_digitChar : ∀ k < 16, hexDigit? (Nat.digitChar k) = some k := by
  decide

/-- **An escaped unit is read as that unit.** -/
theorem readCodes_unitEscape (h : n < 0x10000) (htail : tail ≠ []) :
    readCodes opening codes (unitEscape n ++ tail) =
      readCodes opening (pushUnit n codes) tail := by
  have hunit : hexUnit? (Nat.digitChar (n / 16 / 16 / 16)) (Nat.digitChar (n / 16 / 16 % 16))
      (Nat.digitChar (n / 16 % 16)) (Nat.digitChar (n % 16)) = some n := by
    simp only [hexUnit?, hexDigit?_digitChar _ (show n / 16 / 16 / 16 < 16 by omega),
      hexDigit?_digitChar _ (Nat.mod_lt _ (show 0 < 16 by decide))]
    exact congrArg some (by omega)
  obtain ⟨c, cs, rfl⟩ := List.exists_cons_of_ne_nil htail
  simp only [unitEscape, hexPadded_four h, List.cons_append, List.nil_append]
  rw [readCodes]
  exact hunit

theorem pushUnit_of_not_low (h : isLowSurrogate n = false) : pushUnit n codes = n :: codes := by
  cases codes with
  | nil => rfl
  | cons first codes => rw [pushUnit, h, Bool.and_false, if_neg Bool.false_ne_true]

/-- The two units of a code point above U+FFFF are joined. -/
theorem pushUnit_pair (h : 0x10000 ≤ n) (h' : n < 0x110000) :
    pushUnit (0xDC00 + (n - 0x10000) % 0x400)
      (pushUnit (0xD800 + (n - 0x10000) / 0x400) codes) = n :: codes := by
  have hfirst : isLowSurrogate (0xD800 + (n - 0x10000) / 0x400) = false := by
    simp only [isLowSurrogate, Bool.and_eq_false_iff, decide_eq_false_iff_not]
    omega
  have hpair : (isHighSurrogate (0xD800 + (n - 0x10000) / 0x400) &&
      isLowSurrogate (0xDC00 + (n - 0x10000) % 0x400)) = true := by
    simp only [isHighSurrogate, isLowSurrogate, Bool.and_eq_true, decide_eq_true_iff]
    omega
  rw [pushUnit_of_not_low hfirst, pushUnit, if_pos hpair]
  exact congrArg (· :: codes) (by omega)

/-! ## Strings -/

/-- A short escape is read as the character it stands for. -/
theorem readCodes_escaped {c e : Char} (h : escaped? c = some e) :
    readCodes opening codes ('\\' :: c :: tail) = readCodes opening (e.toNat :: codes) tail := by
  unfold escaped? at h
  split at h <;> cases h <;> rfl

theorem readCodes_plain {c : Char} (h : 0x20 ≤ c.toNat) (hquote : c ≠ '"') (hslash : c ≠ '\\') :
    readCodes opening codes (c :: tail) = readCodes opening (c.toNat :: codes) tail := by
  have hcontrol : ¬ c.toNat < 0x20 := by omega
  rw [readCodes]
  · rw [if_neg hcontrol]
  all_goals simp [hquote, hslash]

/-- **A written code point is read as that code point**, one way of writing
after the other. -/
theorem readCodes_escapedCode (c : Char) (htail : tail ≠ []) :
    readCodes opening codes (escapedCode c.toNat ++ tail) =
      readCodes opening (c.toNat :: codes) tail := by
  have hvalid : c.toNat < 0xD800 ∨ 0xDFFF < c.toNat ∧ c.toNat < 0x110000 := c.valid
  simp only [escapedCode, Char.ofNat_toNat, Bool.or_eq_true, beq_iff_eq, Bool.and_eq_true,
    decide_eq_true_iff]
  split_ifs with hquoted hfeed hreturn htab hback hform hplain hunit
  · obtain rfl | rfl := hquoted <;> exact readCodes_escaped rfl
  · exact hfeed ▸ readCodes_escaped rfl
  · exact hreturn ▸ readCodes_escaped rfl
  · exact htab ▸ readCodes_escaped rfl
  · exact hback ▸ readCodes_escaped rfl
  · exact hform ▸ readCodes_escaped rfl
  · obtain ⟨hquote, hslash⟩ := not_or.1 hquoted
    exact readCodes_plain hplain.1 hquote hslash
  · have hlow : isLowSurrogate c.toNat = false := by
      simp only [isLowSurrogate, Bool.and_eq_false_iff, decide_eq_false_iff_not]
      omega
    rw [readCodes_unitEscape hunit htail, pushUnit_of_not_low hlow]
  · have hfirst : 0xD800 + (c.toNat - 0x10000) / 0x400 < 0x10000 := by omega
    have hsecond : 0xDC00 + (c.toNat - 0x10000) % 0x400 < 0x10000 := by omega
    rw [List.append_assoc, readCodes_unitEscape hfirst (List.append_ne_nil_of_right_ne_nil _ htail),
      readCodes_unitEscape hsecond htail, pushUnit_pair (by omega) (by omega)]

/-- A string of characters is read up to its closing quote. -/
theorem readCodes_text (cs : List Char) :
    readCodes opening codes ((cs.map Char.toNat).flatMap escapedCode ++ '"' :: rest) =
      .ok (codes.reverse ++ cs.map Char.toNat, rest) := by
  induction cs generalizing codes with
  | nil => simp [readCodes]
  | cons c cs ih =>
    rw [List.map_cons, List.flatMap_cons, List.append_assoc, readCodes_escapedCode c (by simp), ih]
    simp

theorem toList_writeString (s : CodePoints) :
    (writeString s).toList = '"' :: (s.codes.flatMap escapedCode ++ ['"']) := by
  rw [writeString, String.toList_ofList]
  rfl

/-- **A written string is read back.** The reader is past the opening
quote. -/
theorem readString_written (s : String) :
    readString ((CodePoints.ofString s).codes.flatMap escapedCode ++ '"' :: rest) =
      .ok (CodePoints.ofString s, rest) := by
  rw [readString, CodePoints.ofString, readCodes_text]
  rfl

/-! ## Numbers -/

/-- The character goes on with a whole number before it, as a digit, a point
or the mark of an exponent does. -/
def extendsNumber (c : Char) : Bool := c.isDigit || c == '.' || c == 'e' || c == 'E'

/-- **What follows a value does not go on with it**: the text is over, or its
next character extends no number. -/
def Ends (rest : List Char) : Prop := ∀ c ∈ rest.head?, extendsNumber c = false

theorem ends_nil : Ends [] := by
  intro c hc
  cases hc

theorem ends_cons {c : Char} (h : extendsNumber c = false) : Ends (c :: rest) := by
  rintro d ⟨⟩
  exact h

/-- Only zero has a zero in front. -/
theorem head?_toDigits_ne (h : n ≠ 0) : (Nat.toDigits 10 n).head? ≠ some '0' := by
  induction n using Nat.strongRecOn with
  | ind n ih =>
    rcases Nat.lt_or_ge n 10 with hlt | hge
    · rw [Nat.toDigits_of_lt_base hlt]
      simpa using h
    · rw [Nat.toDigits_of_base_le (by omega) hge,
        List.head?_append_of_ne_nil _ Nat.toDigits_ne_nil]
      exact ih (n / 10) (by omega) (by omega)

theorem isDigit_of_mem_toDigits_ten {c : Char} (h : c ∈ Nat.toDigits 10 n) : c.isDigit = true :=
  Nat.isDigit_of_mem_toDigits (by decide) (by decide) h

theorem exists_toDigits_eq_cons (n : Nat) :
    ∃ c cs, Nat.toDigits 10 n = c :: cs ∧ c.isDigit = true := by
  obtain ⟨c, cs, hdigits⟩ := List.exists_cons_of_ne_nil (Nat.toDigits_ne_nil (n := n) (b := 10))
  refine ⟨c, cs, hdigits, isDigit_of_mem_toDigits_ten (n := n) ?_⟩
  rw [hdigits]
  exact List.mem_cons_self

theorem spanDigits_toDigits (h : Ends rest) :
    spanDigits (Nat.toDigits 10 n ++ rest) = (Nat.toDigits 10 n, rest) := by
  have hall : ∀ c ∈ Nat.toDigits 10 n, c.isDigit = true := fun _ => isDigit_of_mem_toDigits_ten
  rw [spanDigits, List.takeWhile_append_of_pos hall, List.dropWhile_append_of_pos hall]
  cases rest with
  | nil => simp
  | cons c rest =>
    have hc : c.isDigit = false := by
      have hextends := h c rfl
      simp only [extendsNumber, Bool.or_eq_false_iff] at hextends
      exact hextends.1.1.1
    simp [hc]

/-- The digits before the point are those that were written. -/
theorem wholePart?_toDigits (h : Ends rest) :
    wholePart? (Nat.toDigits 10 n ++ rest) = some (Nat.toDigits 10 n, rest) := by
  by_cases hn : n = 0
  · rw [hn, Nat.toDigits_zero]
    rfl
  · have hhead := head?_toDigits_ne hn
    have hspan := spanDigits_toDigits (n := n) h
    obtain ⟨c, cs, hdigits, hc⟩ := exists_toDigits_eq_cons n
    rw [hdigits] at hhead hspan ⊢
    rw [List.cons_append] at hspan ⊢
    rw [wholePart?, if_pos hc, hspan]
    rintro rfl
    exact hhead rfl

theorem digitsValue_toDigits : digitsValue (Nat.toDigits 10 n) = n := by
  have hvalue := Nat.ofDigitChars_ten_toDigits (n := n)
  rw [Nat.ofDigitChars_eq_foldl] at hvalue
  simpa only [digitsValue, Nat.mul_comm] using hvalue

/-- Without a point or the mark of an exponent in front, a text has neither
part. -/
theorem fractionPart_of_ends (h : Ends rest) : fractionPart rest = ([], rest) := by
  unfold fractionPart
  split
  · exact absurd (h '.' rfl) (by decide)
  · rfl

theorem exponentPart_of_ends (h : Ends rest) : exponentPart rest = (none, rest) := by
  cases rest with
  | nil => rfl
  | cons c rest =>
    have hmark : (c == 'e' || c == 'E') = false := by
      have hextends := h c rfl
      simp only [extendsNumber, Bool.or_eq_false_iff] at hextends ⊢
      exact ⟨hextends.1.2, hextends.2⟩
    unfold exponentPart
    exact if_neg (ne_true_of_eq_false hmark)

/-- **The digits of a number are at most as many as the limit**, if there is
one. -/
def Fits (limit : Option Nat) (n : Int) : Prop :=
  ∀ most ∈ limit, (Nat.toDigits 10 n.natAbs).length ≤ most

theorem fits_none (n : Int) : Fits none n := by
  intro most hmost
  cases hmost

instance (limit : Option Nat) (n : Int) : Decidable (Fits limit n) :=
  inferInstanceAs (Decidable (∀ most ∈ limit, (Nat.toDigits 10 n.natAbs).length ≤ most))

theorem toList_toString_ofNat (n : Nat) : (toString (n : Int)).toList = Nat.toDigits 10 n := by
  rw [Int.toString_eq_repr]
  exact Nat.toList_repr

theorem toList_toString_negSucc (n : Nat) :
    (toString (Int.negSucc n)).toList = '-' :: Nat.toDigits 10 (n + 1) := by
  rw [Int.toString_eq_repr]
  simp only [Int.repr, String.toList_append, Nat.toList_repr]
  rfl

/-- A number is its sign and its digits. -/
theorem spanSign_int (n : Int) :
    spanSign ((toString n).toList ++ rest) =
      (decide (n < 0), Nat.toDigits 10 n.natAbs ++ rest) := by
  cases n with
  | ofNat n =>
    rw [Int.ofNat_eq_natCast, toList_toString_ofNat, Int.natAbs_natCast,
      decide_eq_false (by omega)]
    obtain ⟨c, cs, hdigits, hc⟩ := exists_toDigits_eq_cons n
    rw [hdigits, List.cons_append, spanSign]
    rintro after hminus
    rw [(List.cons.inj hminus).1] at hc
    cases hc
  | negSucc n =>
    rw [toList_toString_negSucc, List.cons_append, spanSign,
      decide_eq_true (Int.negSucc_lt_zero n), Int.natAbs_negSucc]

/-- **A written whole number is read back.** -/
theorem readNumber_int {limit : Option Nat} {n : Int} (hfits : Fits limit n) (h : Ends rest) :
    readNumber limit ((toString n).toList ++ rest) = .ok (.int n, rest) := by
  have hlimit : ¬ limit.any (· < (Nat.toDigits 10 n.natAbs).length) = true := by
    cases limit with
    | none => exact Bool.false_ne_true
    | some most => simpa using hfits most rfl
  have hvalue : (if decide (n < 0) = true then -(n.natAbs : Int) else n.natAbs) = n := by
    split_ifs with hn <;> simp only [decide_eq_true_iff] at hn <;> omega
  simp only [readNumber, spanSign_int, wholePart?_toDigits h, fractionPart_of_ends h,
    exponentPart_of_ends h, digitsValue_toDigits, hvalue]
  rw [if_neg hlimit]
  rfl

/-! ## Words -/

theorem eq_append_of_afterWord? {ws cs : List Char} (h : afterWord? ws cs = some rest) :
    cs = ws ++ rest := by
  induction ws generalizing cs with
  | nil => exact Option.some.inj h
  | cons w ws ih =>
    cases cs with
    | nil => cases h
    | cons c cs =>
      rw [afterWord?] at h
      split_ifs at h with hc
      rw [List.cons_append, ← ih h, beq_iff_eq.1 hc]

/-- No word starts as a number does. -/
theorem wholePart?_of_mem_words :
    ∀ x ∈ words, ∀ rest, wholePart? (spanSign (x.1.toList ++ rest)).2 = none := by
  simp only [words, List.forall_mem_cons]
  exact ⟨fun _ => rfl, fun _ => rfl, fun _ => rfl, fun _ => rfl, fun _ => rfl, fun _ => rfl, nofun⟩

/-- **A whole number is no word**, so it is read as a number. -/
theorem readScalar_int {limit : Option Nat} {n : Int} (hfits : Fits limit n) (h : Ends rest) :
    readScalar limit ((toString n).toList ++ rest) = .ok (.int n, rest) := by
  have hwords : (words.findSome? fun x =>
      (afterWord? x.1.toList ((toString n).toList ++ rest)).map (x.2, ·)) = none := by
    refine List.findSome?_eq_none_iff.2 fun x hx => Option.map_eq_none_iff.2 ?_
    refine Option.eq_none_iff_forall_ne_some.2 fun after hafter => ?_
    have hnone := wholePart?_of_mem_words x hx after
    rw [← eq_append_of_afterWord? hafter, spanSign_int, wholePart?_toDigits h] at hnone
    cases hnone
  rw [readScalar, hwords]
  exact readNumber_int hfits h

end Json

end DesignAtlas
