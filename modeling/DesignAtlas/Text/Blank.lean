/-!
# Blanks and lines

Blank characters are the white space of Unicode, together with the four information
separators U+001C to U+001F. Lines end at a line feed, a carriage return or both
together, and at the vertical tab, the form feed, U+001C to U+001E, U+0085, U+2028
and U+2029.
-/

namespace DesignAtlas.Text

/-- The ranges of code points, ends included, that are blank. -/
def blankRanges : List (Nat × Nat) := [
  (0x9, 0xD), (0x1C, 0x20), (0x85, 0x85), (0xA0, 0xA0), (0x1680, 0x1680), (0x2000, 0x200A),
  (0x2028, 0x2029), (0x202F, 0x202F), (0x205F, 0x205F), (0x3000, 0x3000)]

/-- Whether a character is blank. -/
def isBlank (c : Char) : Bool :=
  blankRanges.any fun (lo, hi) => lo ≤ c.toNat && c.toNat ≤ hi

/-- Drops characters from the end while they satisfy a test. -/
def dropRightWhile (p : Char → Bool) (cs : List Char) : List Char :=
  (cs.reverse.dropWhile p).reverse

/-- A text without the blanks at both ends. -/
def strip (s : String) : String :=
  String.ofList (dropRightWhile isBlank (s.toList.dropWhile isBlank))

/-- A text without the line feeds at its end. -/
def stripLineFeeds (s : String) : String :=
  String.ofList (dropRightWhile (· == '\n') s.toList)

/-- Whether a character ends a line. -/
def endsLine (c : Char) : Bool :=
  c == '\n' || c == '\r' || c == '\x0B' || c == '\x0C' || c == '\x1C' || c == '\x1D' ||
    c == '\x1E' || c == '\u0085' || c == '\u2028' || c == '\u2029'

/-- The lines of the characters, with the characters of the line in hand in reverse.
A last line without an end counts only if it is not empty. -/
def linesFrom : List Char → List Char → List (List Char)
  | line, [] => if line.isEmpty then [] else [line.reverse]
  | line, '\r' :: '\n' :: cs => line.reverse :: linesFrom [] cs
  | line, c :: cs =>
    if endsLine c then line.reverse :: linesFrom [] cs else linesFrom (c :: line) cs

/-- The lines of a text, without their ends. -/
def lines (s : String) : List String :=
  (linesFrom [] s.toList).map String.ofList

end DesignAtlas.Text
