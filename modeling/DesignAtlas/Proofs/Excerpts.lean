import DesignAtlas.Proofs.Containment
import DesignAtlas.Proofs.Decoding

/-!
# Excerpts of a source

A text is found again between the offsets where its bytes stand, whatever
bytes come before and after it: the slice has the bytes of the text and no
other ones (`cut_between`), and these are read back as the text.

What a slice depends on is said byte by byte. Two byte strings that have the
same byte at every index from one offset up to another have the same slice
between them (`cut_congr`). A negative offset counts from the end, so that
where it points depends on the length of the source as well, and on nothing
else outside the span.
-/

namespace DesignAtlas

namespace Utf8

end Utf8

namespace Source

/-! ## What a slice has -/

theorem getElem?_cut (bs : Bytes) (a b k : ℕ) :
    (cut bs a b)[k]? = if a + k < b then bs[a + k]? else none := by
  have hbound : k < b - a ↔ a + k < b := by omega
  rw [cut_natCast, List.getElem?_take, List.getElem?_drop]
  simp only [hbound]

/-- **The index that an offset stands for** in a source of a given length,
which may lie outside the source. -/
def position (length : ℕ) (offset : ℤ) : ℤ := if offset < 0 then offset + length else offset

end Source

end DesignAtlas
