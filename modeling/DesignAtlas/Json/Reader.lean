import DesignAtlas.Json.Basic

/-!
# Reading JSON

A reader for JSON text that says where and why a text is refused. It is a recursive
descent over the characters; each part returns its result and what is left of the
text, and a fault carries what was left at the place it points to, from which line and
column follow.

Beyond the standard grammar the words `NaN`, `Infinity` and `-Infinity` are numbers.
A repeated name keeps its first place and takes its last value. Lists and objects may
be nested to a limit, and whole numbers have a greatest length.
-/

namespace DesignAtlas

namespace Decimal

/-- The floating-point number nearest to `m * 10 ^ e`. Powers far outside the range
of the type are decided by the number of digits. -/
def toFloat (m : Nat) (e : Int) : Float :=
  let size := ((Nat.toDigits 10 m).length : Int) + e
  if m == 0 || size < -400 then 0.0
  else if 400 < size then 1.0 / 0.0
  else Float.ofScientific m (e < 0) e.natAbs

end Decimal

namespace Json

/-- Why a text is not a JSON value. -/
inductive Fault where
  | byteOrderMark
  | expectedValue
  | expectedName
  | expectedColon
  | expectedComma
  | extraData
  | unterminatedString
  | controlCharacter
  | badEscape
  | badUnicodeEscape
  deriving DecidableEq, Repr

/-- The wording of a fault. -/
def Fault.message : Fault → String
  | .byteOrderMark => "Unexpected UTF-8 BOM (decode using utf-8-sig)"
  | .expectedValue => "Expecting value"
  | .expectedName => "Expecting property name enclosed in double quotes"
  | .expectedColon => "Expecting ':' delimiter"
  | .expectedComma => "Expecting ',' delimiter"
  | .extraData => "Extra data"
  | .unterminatedString => "Unterminated string starting at"
  | .controlCharacter => "Invalid control character at"
  | .badEscape => "Invalid \\escape"
  | .badUnicodeEscape => "Invalid \\uXXXX escape"

/-- A place in a text: the number of characters before it, and its line and column
counted from one. -/
structure Place where
  offset : Nat
  line : Nat
  column : Nat
  deriving DecidableEq, Repr

/-- The place after the first `offset` characters. -/
def Place.after (cs : List Char) (offset : Nat) : Place :=
  let before := cs.take offset
  { offset
    line := before.count '\n' + 1
    column := (before.reverse.takeWhile (· != '\n')).length + 1 }

/-- Why a text could not be read. -/
inductive ReadError where
  | malformed (fault : Fault) (place : Place)
  | tooDeep
  | integerTooLong (digits : Nat)
  deriving DecidableEq, Repr

/-- The greatest depth of nested lists and objects. -/
def nestingLimit : Nat := 990

/-- The greatest number of digits of a whole number. -/
def digitLimit : Nat := 4300

/-- The wording of an error. -/
def ReadError.message : ReadError → String
  | .malformed fault place =>
    s!"{fault.message}: line {place.line} column {place.column} (char {place.offset})"
  | .tooDeep => "nested too deeply"
  | .integerTooLong digits =>
    s!"Exceeds the limit ({digitLimit} digits) for integer string conversion: " ++
      s!"value has {digits} " ++
      "digits; use sys.set_int_max_str_digits() to increase the limit"

/-- Why reading stopped. A fault comes with the characters from its place on. -/
inductive Stop where
  | fault (fault : Fault) (rest : List Char)
  | tooDeep
  | integerTooLong (digits : Nat)
  deriving DecidableEq, Repr

/-- Drops the blanks that may stand between the parts of a value. -/
def skipBlanks (cs : List Char) : List Char :=
  cs.dropWhile fun c => c == ' ' || c == '\t' || c == '\n' || c == '\r'

/-! ## Strings -/

/-- The value of a hexadecimal digit. -/
def hexDigit? (c : Char) : Option Nat :=
  if c.isDigit then some (c.toNat - '0'.toNat)
  else if 'a' ≤ c && c ≤ 'f' then some (c.toNat - 'a'.toNat + 10)
  else if 'A' ≤ c && c ≤ 'F' then some (c.toNat - 'A'.toNat + 10)
  else none

/-- The value of four hexadecimal digits. -/
def hexUnit? (a b c d : Char) : Option Nat := do
  return ((← hexDigit? a) * 4096 + (← hexDigit? b) * 256 + (← hexDigit? c) * 16 + (← hexDigit? d))

/-- Whether a number is the first unit of a surrogate pair. -/
def isHighSurrogate (n : Nat) : Bool := 0xD800 ≤ n && n < 0xDC00

/-- Whether a number is the second unit of a surrogate pair. -/
def isLowSurrogate (n : Nat) : Bool := 0xDC00 ≤ n && n < 0xE000

/-- Adds an escaped unit to the code points read so far, last first. The second unit
of a pair is joined with the first. -/
def pushUnit (n : Nat) : List Nat → List Nat
  | [] => [n]
  | h :: codes =>
    if isHighSurrogate h && isLowSurrogate n then
      (0x10000 + (h - 0xD800) * 0x400 + (n - 0xDC00)) :: codes
    else n :: h :: codes

/-- The character that a backslash and one other character stand for. -/
def escaped? : Char → Option Char
  | '"' => some '"'
  | '\\' => some '\\'
  | '/' => some '/'
  | 'b' => some '\x08'
  | 'f' => some '\x0C'
  | 'n' => some '\n'
  | 'r' => some '\r'
  | 't' => some '\t'
  | _ => none

/-- Reads a string up to its closing quote. `opening` is the text from the opening
quote on, and `codes` are the code points read so far, last first. -/
def readCodes (opening : List Char) : List Nat → List Char → Except Stop (List Nat × List Char)
  | _, [] => .error (.fault .unterminatedString opening)
  | codes, '"' :: rest => .ok (codes.reverse, rest)
  | _, ['\\'] => .error (.fault .unterminatedString opening)
  | codes, '\\' :: 'u' :: a :: b :: c :: d :: rest =>
    match hexUnit? a b c d, rest with
    | some n, _ :: _ => readCodes opening (pushUnit n codes) rest
    | _, _ => .error (.fault .badUnicodeEscape ('u' :: a :: b :: c :: d :: rest))
  | _, '\\' :: 'u' :: rest => .error (.fault .badUnicodeEscape ('u' :: rest))
  | codes, '\\' :: c :: rest =>
    match escaped? c with
    | some e => readCodes opening (e.toNat :: codes) rest
    | none => .error (.fault .badEscape ('\\' :: c :: rest))
  | codes, c :: rest =>
    if c.toNat < 0x20 then .error (.fault .controlCharacter (c :: rest))
    else readCodes opening (c.toNat :: codes) rest

/-- Reads a string after its opening quote. -/
def readString (rest : List Char) : Except Stop (CodePoints × List Char) := do
  let (codes, after) ← readCodes ('"' :: rest) [] rest
  return (⟨codes⟩, after)

/-! ## Numbers -/

/-- The digits at the front of a text, and the rest. -/
def spanDigits (cs : List Char) : List Char × List Char :=
  (cs.takeWhile Char.isDigit, cs.dropWhile Char.isDigit)

/-- The number that digits stand for. -/
def digitsValue (ds : List Char) : Nat :=
  ds.foldl (fun n d => n * 10 + (d.toNat - '0'.toNat)) 0

/-- The digits before the point: a single zero, or digits of which the first is no
zero. -/
def wholePart? : List Char → Option (List Char × List Char)
  | '0' :: rest => some (['0'], rest)
  | c :: rest => if c.isDigit then some (spanDigits (c :: rest)) else none
  | [] => none

/-- The digits after a point. Without any, the point is left. -/
def fractionPart : List Char → List Char × List Char
  | '.' :: rest =>
    match spanDigits rest with
    | ([], _) => ([], '.' :: rest)
    | found => found
  | cs => ([], cs)

/-- The value of an exponent. Without digits, its mark is left. -/
def exponentPart (cs : List Char) : Option Int × List Char :=
  match cs with
  | mark :: rest =>
    if mark == 'e' || mark == 'E' then
      let (negative, body) := match rest with
        | '-' :: r => (true, r)
        | '+' :: r => (false, r)
        | r => (false, r)
      match spanDigits body with
      | ([], _) => (none, cs)
      | (ds, after) => (some (if negative then -(digitsValue ds : Int) else digitsValue ds), after)
    else (none, cs)
  | [] => (none, cs)

/-- Whether a text has a minus sign in front, and what follows the sign. -/
def spanSign : List Char → Bool × List Char
  | '-' :: rest => (true, rest)
  | cs => (false, cs)

/-- Reads a number. Without a fraction and an exponent it is a whole number, which may
have `limit` digits, or any number of them. -/
def readNumber (limit : Option Nat) (cs : List Char) : Except Stop (Json × List Char) :=
  let (negative, body) := spanSign cs
  match wholePart? body with
  | none => .error (.fault .expectedValue cs)
  | some (whole, rest) =>
    let (fraction, rest) := fractionPart rest
    let (exponent, rest) := exponentPart rest
    if fraction.isEmpty && exponent.isNone then
      if limit.any (· < whole.length) then .error (.integerTooLong whole.length)
      else
        let n : Int := digitsValue whole
        .ok (.int (if negative then -n else n), rest)
    else
      let x := Decimal.toFloat (digitsValue (whole ++ fraction)) (exponent.getD 0 - fraction.length)
      .ok (.float (if negative then -x else x), rest)

/-! ## Values -/

/-- What follows a word at the front of a text. -/
def afterWord? : List Char → List Char → Option (List Char)
  | [], cs => some cs
  | w :: ws, c :: cs => if w == c then afterWord? ws cs else none
  | _ :: _, [] => none

/-- The words that are values. -/
def words : List (String × Json) := [
  ("null", .null), ("true", .bool true), ("false", .bool false), ("NaN", .float (0.0 / 0.0)),
  ("Infinity", .float (1.0 / 0.0)), ("-Infinity", .float (-1.0 / 0.0))]

/-- Reads a word or a number. -/
def readScalar (limit : Option Nat) (cs : List Char) : Except Stop (Json × List Char) :=
  match words.findSome? fun (word, value) => (afterWord? word.toList cs).map (value, ·) with
  | some found => .ok found
  | none => readNumber limit cs

mutual

/-- Reads a value. `limit` is the greatest number of digits, if there is one, and `depth` is
how many more levels may be nested. The number before `depth` bounds the steps; twice the
length of the text is enough. -/
def readValue (limit : Option Nat) : Nat → Nat → List Char → Except Stop (Json × List Char)
  | 0, _, cs => .error (.fault .expectedValue cs)
  | fuel + 1, depth, cs =>
    match cs with
    | '"' :: rest => do
      let (s, after) ← readString rest
      return (.str s, after)
    | '[' :: rest =>
      match depth with
      | 0 => .error .tooDeep
      | depth + 1 =>
        match skipBlanks rest with
        | ']' :: after => .ok (.arr [], after)
        | items => readItems limit fuel depth [] items
    | '\x7b' :: rest =>
      match depth with
      | 0 => .error .tooDeep
      | depth + 1 =>
        match skipBlanks rest with
        | '\x7d' :: after => .ok (.obj [], after)
        | fields => readFields limit fuel depth [] fields
    | _ => readScalar limit cs

/-- Reads the items of a list from the first one on; `items` are those read before,
last first. -/
def readItems (limit : Option Nat) :
    Nat → Nat → List Json → List Char → Except Stop (Json × List Char)
  | 0, _, _, cs => .error (.fault .expectedValue cs)
  | fuel + 1, depth, items, cs => do
    let (item, after) ← readValue limit fuel depth cs
    match skipBlanks after with
    | ']' :: rest => .ok (.arr (item :: items).reverse, rest)
    | ',' :: rest => readItems limit fuel depth (item :: items) (skipBlanks rest)
    | rest => .error (.fault .expectedComma rest)

/-- Reads the fields of an object from the first one on; `fields` are those read
before. -/
def readFields (limit : Option Nat) :
    Nat → Nat → List (CodePoints × Json) → List Char → Except Stop (Json × List Char)
  | 0, _, _, cs => .error (.fault .expectedName cs)
  | fuel + 1, depth, fields, cs =>
    match cs with
    | '"' :: rest => do
      let (name, after) ← readString rest
      match skipBlanks after with
      | ':' :: rest => do
        let (value, after) ← readValue limit fuel depth (skipBlanks rest)
        match skipBlanks after with
        | '\x7d' :: rest => .ok (.obj (upsert name value fields), rest)
        | ',' :: rest => readFields limit fuel depth (upsert name value fields) (skipBlanks rest)
        | rest => .error (.fault .expectedComma rest)
      | rest => .error (.fault .expectedColon rest)
    | _ => .error (.fault .expectedName cs)

end

/-- Reads a whole text as one value, blanks around it allowed. Whole numbers may have
`limit` digits, or any number of them. -/
def readTextWithin (limit : Option Nat) (cs : List Char) : Except Stop Json :=
  if cs.head? == some '\uFEFF' then .error (.fault .byteOrderMark cs)
  else do
    let (value, after) ← readValue limit (2 * cs.length + 2) nestingLimit (skipBlanks cs)
    match skipBlanks after with
    | [] => return value
    | rest => .error (.fault .extraData rest)

/-- Reads a whole text as one value, within the limit for digits. -/
def readText (cs : List Char) : Except Stop Json := readTextWithin (some digitLimit) cs

/-- The error of a stop in a given text. -/
def Stop.toError (cs : List Char) : Stop → ReadError
  | .fault why rest => .malformed why (Place.after cs (cs.length - rest.length))
  | .tooDeep => .tooDeep
  | .integerTooLong digits => .integerTooLong digits

/-- **Reads a JSON text.** -/
def read (s : String) : Except ReadError Json :=
  (readText s.toList).mapError (Stop.toError s.toList)

end Json

end DesignAtlas
