import DesignAtlas.Json.Literal

/-!
# Writing JSON

A value as JSON text in printable ASCII. All other characters are written as escapes
of their code, in two units above U+FFFF, or as the short escapes that some control
characters have; the quote and the backslash are escaped too. Lists and objects stand on one
line, or one item a line with an indent a level; empty ones are never broken.
-/

namespace DesignAtlas

namespace Json

/-- How a value is laid out. -/
inductive Layout where
  /-- All on one line, a blank after each comma and colon. -/
  | line
  /-- One item a line, each level indented by `width` more blanks. -/
  | indented (width : Nat)
  deriving DecidableEq, Repr

/-- An escape by code unit. -/
def unitEscape (n : Nat) : List Char :=
  '\\' :: 'u' :: Text.hexPadded 4 n

/-- How a code point is written inside a string. -/
def escapedCode (n : Nat) : List Char :=
  let c := Char.ofNat n
  if c == '"' || c == '\\' then ['\\', c]
  else if c == '\n' then ['\\', 'n']
  else if c == '\r' then ['\\', 'r']
  else if c == '\t' then ['\\', 't']
  else if c == '\x08' then ['\\', 'b']
  else if c == '\x0C' then ['\\', 'f']
  else if 0x20 ≤ n && n < 0x7F then [c]
  else if n < 0x10000 then unitEscape n
  else
    unitEscape (0xD800 + (n - 0x10000) / 0x400) ++ unitEscape (0xDC00 + (n - 0x10000) % 0x400)

/-- A string in quotes. -/
def writeString (s : CodePoints) : String :=
  String.ofList ('"' :: s.codes.flatMap escapedCode ++ ['"'])

/-- A number that may have a fraction. -/
def writeFloat (x : Float) : String :=
  match Decimal.Reading.ofFloat x with
  | .nan => "NaN"
  | .infinite negative => if negative then "-Infinity" else "Infinity"
  | _ => Decimal.text x

/-- The break before an item at a depth. -/
def Layout.lineBreak (layout : Layout) (depth : Nat) : String :=
  match layout with
  | .line => ""
  | .indented width => String.ofList ('\n' :: List.replicate (width * depth) ' ')

/-- What stands between two items at a depth. -/
def Layout.separator (layout : Layout) (depth : Nat) : String :=
  match layout with
  | .line => ", "
  | .indented _ => "," ++ layout.lineBreak depth

/-- Items at a depth between their brackets. -/
def Layout.enclose (layout : Layout) (depth : Nat) (left right : String)
    (items : List String) : String :=
  if items.isEmpty then left ++ right
  else
    left ++ layout.lineBreak (depth + 1) ++
      String.intercalate (layout.separator (depth + 1)) items ++ layout.lineBreak depth ++ right

mutual

/-- A value at a depth. -/
def writeAt (layout : Layout) (depth : Nat) : Json → String
  | .null => "null"
  | .bool b => if b then "true" else "false"
  | .int n => toString n
  | .float x => writeFloat x
  | .str s => writeString s
  | .arr items => layout.enclose depth "[" "]" (writeItems layout (depth + 1) items)
  | .obj fields => layout.enclose depth "\x7b" "\x7d" (writeFields layout (depth + 1) fields)

/-- The items of a list at a depth. -/
def writeItems (layout : Layout) (depth : Nat) : List Json → List String
  | [] => []
  | j :: js => writeAt layout depth j :: writeItems layout depth js

/-- The fields of an object at a depth. -/
def writeFields (layout : Layout) (depth : Nat) : List (CodePoints × Json) → List String
  | [] => []
  | (name, j) :: rest =>
    (writeString name ++ ": " ++ writeAt layout depth j) :: writeFields layout depth rest

end

/-- **Writes a value as JSON text.** -/
def write (j : Json) (layout : Layout) : String :=
  j.writeAt layout 0

end Json

end DesignAtlas
