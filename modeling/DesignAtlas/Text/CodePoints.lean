import DesignAtlas.Text.Quoted

/-!
# Texts of code points

A JSON text may escape one half of a surrogate pair without the other. Such a half is a
code point but no character, so a text that is read from JSON is a list of code points.
Quoted, it shows each half by its code; as running text it has the replacement
character U+FFFD in its place.

Main statements: a text of characters is shown as it is (`shown_ofString`) and holds no
halves (`halves?_ofString`).
-/

namespace DesignAtlas

/-- A text as a list of code points, halves of surrogate pairs included. -/
structure CodePoints where
  codes : List Nat
  deriving DecidableEq, Repr, Inhabited

namespace CodePoints

/-- The code points of a text of characters. -/
def ofString (s : String) : CodePoints := ⟨s.toList.map Char.toNat⟩

instance : Coe String CodePoints := ⟨ofString⟩

/-- Whether a code point is half of a surrogate pair. -/
def isSurrogate (n : Nat) : Bool := 0xD800 ≤ n && n < 0xE000

/-- The character of a code point; half of a pair has none and is replaced. -/
def charOf (n : Nat) : Char := if isSurrogate n then '\uFFFD' else Char.ofNat n

/-- The characters of a text. -/
def chars (t : CodePoints) : List Char := t.codes.map charOf

/-- A text as running text. -/
def shown (t : CodePoints) : String := String.ofList t.chars

/-- How a code point is written inside quotes of the given kind. -/
def quotedCode (quote : Char) (n : Nat) : List Char :=
  if isSurrogate n then '\\' :: 'u' :: Text.hexPadded 4 n else Text.quotedChar quote (Char.ofNat n)

/-- A text in quotes, as messages show it. -/
def quoted (t : CodePoints) : String :=
  let quote := Text.quoteFor t.chars
  String.ofList (quote :: t.codes.flatMap (quotedCode quote) ++ [quote])

/-! ## Characters -/

/-- No character is half of a surrogate pair. -/
theorem isSurrogate_toNat (c : Char) : isSurrogate c.toNat = false := by
  have h : Nat.isValidChar c.toNat := c.valid
  simp only [Nat.isValidChar] at h
  simp only [isSurrogate, Bool.and_eq_false_iff, decide_eq_false_iff_not]
  omega

theorem charOf_toNat (c : Char) : charOf c.toNat = c := by
  rw [charOf, isSurrogate_toNat, if_neg Bool.false_ne_true, Char.ofNat_toNat]

/-- **A text of characters is shown as it is.** -/
theorem shown_ofString (s : String) : (ofString s).shown = s := by
  simp [shown, chars, ofString, Function.comp_def, charOf_toNat]

/-! ## Bytes

Halves of pairs have no bytes, and a text that holds any cannot be encoded. Paths are
given to the system as bytes too, but there the halves from U+DC80 to U+DCFF stand for
a byte each. -/

/-- Whether half of a surrogate pair stands for a byte in a path. -/
def standsForByte (n : Nat) : Bool := 0xDC80 ≤ n && n ≤ 0xDCFF

/-- A run of halves of surrogate pairs that has no bytes: where it starts, and its
members. -/
structure Unencodable where
  start : Nat
  codes : List Nat
  deriving DecidableEq, Repr

/-- The first run of halves, from a position on, that has no bytes. It starts with the
first code point that is refused; halves that come before it and are not refused are not
part of it. -/
def unencodableFrom (refused : Nat → Bool) (position : Nat) : List Nat → Option Unencodable
  | [] => none
  | n :: rest =>
    if refused n then some ⟨position, n :: rest.takeWhile isSurrogate⟩
    else unencodableFrom refused (position + 1) rest

/-- The first run of halves that a text holds. -/
def halves? (t : CodePoints) : Option Unencodable := unencodableFrom isSurrogate 0 t.codes

/-- The first run of code points that a path cannot hold. -/
def unencodable? (t : CodePoints) : Option Unencodable :=
  unencodableFrom (fun n => isSurrogate n && !standsForByte n) 0 t.codes

theorem unencodableFrom_eq_none_iff {refused : Nat → Bool} {position : Nat} {codes : List Nat} :
    unencodableFrom refused position codes = none ↔ ∀ n ∈ codes, refused n = false := by
  induction codes generalizing position with
  | nil => simp [unencodableFrom]
  | cons n rest ih =>
    rw [unencodableFrom, List.forall_mem_cons]
    cases refused n with
    | false => simpa using ih
    | true => simp

/-- **A text of characters holds no halves.** -/
theorem halves?_ofString (s : String) : (ofString s).halves? = none := by
  refine unencodableFrom_eq_none_iff.2 fun n hn => ?_
  obtain ⟨c, -, rfl⟩ := List.mem_map.1 hn
  exact isSurrogate_toNat c

theorem unencodable?_ofString (s : String) : (ofString s).unencodable? = none := by
  refine unencodableFrom_eq_none_iff.2 fun n hn => ?_
  obtain ⟨c, -, rfl⟩ := List.mem_map.1 hn
  rw [isSurrogate_toNat, Bool.false_and]

/-- The wording for a run of halves that has no bytes. -/
def Unencodable.message (u : Unencodable) : String :=
  match u.codes with
  | [n] =>
    let code := String.ofList ('\\' :: 'u' :: Text.hexPadded 4 n)
    s!"'utf-8' codec can't encode character '{code}' in position {u.start}: " ++
      "surrogates not allowed"
  | codes =>
    s!"'utf-8' codec can't encode characters in position {u.start}-" ++
      s!"{u.start + codes.length - 1}: surrogates not allowed"

end CodePoints

end DesignAtlas
