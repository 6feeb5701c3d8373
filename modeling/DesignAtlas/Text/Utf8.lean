/-!
# UTF-8 text and bytes

A text is written as the bytes of its characters, and bytes are read back by a
machine that takes one byte at a time. Reading never fails: a byte sequence that
cannot be continued into a character is replaced by one U+FFFD, and reading goes
on with the byte that broke it. So a truncated sequence costs one replacement
character, and so does each byte that can start nothing.
-/

namespace DesignAtlas

/-- A string of bytes. -/
abbrev Bytes := List UInt8

namespace Utf8

/-- The bytes of a character list. -/
def encodeChars (cs : List Char) : Bytes :=
  cs.flatMap String.utf8EncodeChar

/-- The bytes of a text. -/
def encode (s : String) : Bytes :=
  encodeChars s.toList

/-- The character that stands for bytes that are no text. -/
def replacement : Char := '\uFFFD'

/-- What the reader still expects. In the middle of a sequence it knows how many
bytes are `missing` after the next one, the bounds `lo` and `hi` of the next byte,
and the value `acc` of the bits read so far. -/
inductive State where
  | fresh
  | inside (missing : Nat) (lo hi : UInt8) (acc : Nat)
  deriving DecidableEq, Repr

/-- Reads a byte where a character may start. -/
def start (b : UInt8) : List Char × State :=
  if b < 0x80 then ([Char.ofNat b.toNat], .fresh)
  else if b < 0xC2 then ([replacement], .fresh)
  else if b < 0xE0 then ([], .inside 0 0x80 0xBF (b.toNat - 0xC0))
  else if b = 0xE0 then ([], .inside 1 0xA0 0xBF 0)
  else if b = 0xED then ([], .inside 1 0x80 0x9F 0xD)
  else if b < 0xF0 then ([], .inside 1 0x80 0xBF (b.toNat - 0xE0))
  else if b = 0xF0 then ([], .inside 2 0x90 0xBF 0)
  else if b < 0xF4 then ([], .inside 2 0x80 0xBF (b.toNat - 0xF0))
  else if b = 0xF4 then ([], .inside 2 0x80 0x8F 4)
  else ([replacement], .fresh)

/-- Reads one byte: the characters it settles, and what is expected next. A byte
outside the bounds ends the sequence before it and is read again from the start. -/
def step : State → UInt8 → List Char × State
  | .fresh, b => start b
  | .inside missing lo hi acc, b =>
    if lo ≤ b ∧ b ≤ hi then
      let value := acc * 64 + (b.toNat - 0x80)
      match missing with
      | 0 => ([Char.ofNat value], .fresh)
      | n + 1 => ([], .inside n 0x80 0xBF value)
    else
      let (settled, next) := start b
      (replacement :: settled, next)

/-- What is settled when the bytes end. -/
def finish : State → List Char
  | .fresh => []
  | .inside .. => [replacement]

/-- The characters that the bytes settle, from a given state to the end. -/
def decodeFrom : State → Bytes → List Char
  | st, [] => finish st
  | st, b :: bs =>
    let (settled, next) := step st b
    settled ++ decodeFrom next bs

/-- The text of a byte string. -/
def decode (bs : Bytes) : String :=
  String.ofList (decodeFrom .fresh bs)

end Utf8

end DesignAtlas
