import DesignAtlas.Text.CodePoints
import DesignAtlas.Text.Utf8

/-!
# Source text and slices

The contents of a source file, and the text between two byte offsets of it. Offsets
may be negative, counting from the end, and are clamped to the file.

Contents may also be given as code points. Those make a source only where they have
bytes (`Contents.source`).
-/

namespace DesignAtlas

/-- The contents of a source file. -/
inductive Source where
  /-- The contents are not known. -/
  | absent
  /-- The contents were given as text. -/
  | text (s : String)
  /-- The contents as stored. -/
  | stored (bytes : Bytes)
  deriving DecidableEq, Repr, Inhabited

namespace Source

/-- The contents as bytes. -/
def bytes : Source → Bytes
  | .absent => []
  | .text s => Utf8.encode s
  | .stored bs => bs

/-- The same contents with the bytes at hand. -/
def encoded : Source → Source
  | .absent => .absent
  | source => .stored source.bytes

/-- The index that an offset points to in a byte string of a given length. -/
def clamp (length : Nat) (offset : Int) : Nat :=
  if offset < 0 then (offset + length).toNat else min offset.toNat length

/-- The bytes between two offsets. -/
def cut (bs : Bytes) (start stop : Int) : Bytes :=
  let first := clamp bs.length start
  (bs.drop first).take (clamp bs.length stop - first)

/-- The text between two byte offsets. Bytes that are no text are replaced. -/
def slice (source : Source) (start stop : Int) : String :=
  Utf8.decode (cut source.bytes start stop)

theorem bytes_encoded (source : Source) : source.encoded.bytes = source.bytes := by
  cases source <;> rfl

/-- Having the bytes at hand changes no slice. -/
theorem slice_encoded (source : Source) (start stop : Int) :
    source.encoded.slice start stop = source.slice start stop := by
  rw [slice, slice, bytes_encoded]

end Source

/-- The contents of a source file as they are given, which need not have bytes. -/
inductive Contents where
  /-- Nothing is given. -/
  | absent
  /-- A text, which may hold halves of surrogate pairs. -/
  | text (t : CodePoints)
  /-- The contents as stored. -/
  | stored (bytes : Bytes)
  deriving DecidableEq, Repr, Inhabited

/-- The source that contents make. A text that holds halves of pairs makes none. -/
def Contents.source : Contents → Except CodePoints.Unencodable Source
  | .absent => .ok .absent
  | .text t =>
    match t.halves? with
    | some run => .error run
    | none => .ok (.text t.shown)
  | .stored bs => .ok (.stored bs)

end DesignAtlas
