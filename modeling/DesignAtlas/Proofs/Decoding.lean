import DesignAtlas.Text.Utf8

/-!
# Reading back what was written

The bytes of a text are read back as the text (`decode_encode`). The first
byte of a character says how many bytes follow it and bounds the next one,
which rules out the longer spellings of a character and the halves of
surrogate pairs. So the proof goes by the number of bytes of a character:
what its first byte makes the reader expect (`start_two`, `start_three`,
`start_four`), and that every later byte is one that is expected.
-/

namespace DesignAtlas.Utf8

variable {b lo hi : UInt8} {acc n : Nat}

/-! ## One byte -/

/-- The first byte of a character, read as a number. -/
theorem start_eq (b : UInt8) :
    start b =
      if b.toNat < 0x80 then ([Char.ofNat b.toNat], .fresh)
      else if b.toNat < 0xC2 then ([replacement], .fresh)
      else if b.toNat < 0xE0 then ([], .inside 0 0x80 0xBF (b.toNat - 0xC0))
      else if b.toNat = 0xE0 then ([], .inside 1 0xA0 0xBF 0)
      else if b.toNat = 0xED then ([], .inside 1 0x80 0x9F 0xD)
      else if b.toNat < 0xF0 then ([], .inside 1 0x80 0xBF (b.toNat - 0xE0))
      else if b.toNat = 0xF0 then ([], .inside 2 0x90 0xBF 0)
      else if b.toNat < 0xF4 then ([], .inside 2 0x80 0xBF (b.toNat - 0xF0))
      else if b.toNat = 0xF4 then ([], .inside 2 0x80 0x8F 4)
      else ([replacement], .fresh) := by
  simp only [start, UInt8.lt_iff_toNat_lt, ← UInt8.toNat_inj]
  rfl

theorem start_two (hlo : 0xC2 ≤ b.toNat) (hhi : b.toNat < 0xE0) :
    start b = ([], .inside 0 0x80 0xBF (b.toNat - 0xC0)) := by
  rw [start_eq, if_neg (by omega), if_neg (by omega), if_pos hhi]

/-- After `E0` the next byte starts later, so that no shorter spelling is
repeated, and after `ED` it ends earlier, before the halves of pairs. -/
theorem start_three (hlo : 0xE0 ≤ b.toNat) (hhi : b.toNat < 0xF0) :
    start b = ([], .inside 1 (if b.toNat = 0xE0 then 0xA0 else 0x80)
      (if b.toNat = 0xED then 0x9F else 0xBF) (b.toNat - 0xE0)) := by
  rw [start_eq, if_neg (by omega), if_neg (by omega), if_neg (by omega)]
  by_cases hfirst : b.toNat = 0xE0
  · simp [hfirst]
  · by_cases hpairs : b.toNat = 0xED
    · simp [hpairs]
    · rw [if_neg hfirst, if_neg hpairs, if_pos hhi, if_neg hfirst, if_neg hpairs]

/-- After `F0` the next byte starts later, and after `F4` it ends earlier,
with the last code point. -/
theorem start_four (hlo : 0xF0 ≤ b.toNat) (hhi : b.toNat ≤ 0xF4) :
    start b = ([], .inside 2 (if b.toNat = 0xF0 then 0x90 else 0x80)
      (if b.toNat = 0xF4 then 0x8F else 0xBF) (b.toNat - 0xF0)) := by
  rw [start_eq, if_neg (by omega), if_neg (by omega), if_neg (by omega), if_neg (by omega),
    if_neg (by omega), if_neg (by omega)]
  by_cases hfirst : b.toNat = 0xF0
  · simp [hfirst]
  · by_cases hlast : b.toNat = 0xF4
    · simp [hlast]
    · rw [if_neg hfirst, if_pos (by omega), if_neg hfirst, if_neg hlast]

/-- Within the bounds the last byte of a character settles it. -/
theorem step_last (hlo : lo.toNat ≤ b.toNat) (hhi : b.toNat ≤ hi.toNat) :
    step (.inside 0 lo hi acc) b = ([Char.ofNat (acc * 64 + (b.toNat - 0x80))], .fresh) := by
  have hbounds : lo ≤ b ∧ b ≤ hi := ⟨UInt8.le_iff_toNat_le.2 hlo, UInt8.le_iff_toNat_le.2 hhi⟩
  exact if_pos hbounds

/-- Within the bounds a byte before the last adds six bits, and the next one
may be any later byte. -/
theorem step_middle (missing : Nat) (hlo : lo.toNat ≤ b.toNat) (hhi : b.toNat ≤ hi.toNat) :
    step (.inside (missing + 1) lo hi acc) b =
      ([], .inside missing 0x80 0xBF (acc * 64 + (b.toNat - 0x80))) := by
  have hbounds : lo ≤ b ∧ b ≤ hi := ⟨UInt8.le_iff_toNat_le.2 hlo, UInt8.le_iff_toNat_le.2 hhi⟩
  exact if_pos hbounds

/-! ## One character -/

theorem toNat_ofNat (h : n < 256) : (UInt8.ofNat n).toNat = n := UInt8.toNat_ofNat_of_lt' h

theorem decodeFrom_cons (st : State) (b : UInt8) (bs : Bytes) :
    decodeFrom st (b :: bs) = (step st b).1 ++ decodeFrom (step st b).2 bs := rfl

theorem decodeFrom_last (rest : Bytes) (hn : n < 64) :
    decodeFrom (.inside 0 0x80 0xBF acc) (UInt8.ofNat (n + 128) :: rest) =
      Char.ofNat (acc * 64 + n) :: decodeFrom .fresh rest := by
  have hb : (UInt8.ofNat (n + 128)).toNat = n + 128 := toNat_ofNat (by omega)
  have hlo : (0x80 : UInt8).toNat ≤ (UInt8.ofNat (n + 128)).toNat := by rw [hb]; simp
  have hhi : (UInt8.ofNat (n + 128)).toNat ≤ (0xBF : UInt8).toNat := by rw [hb]; simp; omega
  rw [decodeFrom_cons, step_last hlo hhi, hb, Nat.add_sub_cancel, List.singleton_append]

theorem decodeFrom_middle (missing : Nat) (rest : Bytes) (hn : n < 64)
    (hlo : lo.toNat ≤ n + 128) (hhi : n + 128 ≤ hi.toNat) :
    decodeFrom (.inside (missing + 1) lo hi acc) (UInt8.ofNat (n + 128) :: rest) =
      decodeFrom (.inside missing 0x80 0xBF (acc * 64 + n)) rest := by
  have hb : (UInt8.ofNat (n + 128)).toNat = n + 128 := toNat_ofNat (by omega)
  rw [← hb] at hlo hhi
  rw [decodeFrom_cons, step_middle missing hlo hhi, hb, Nat.add_sub_cancel, List.nil_append]

/-- **A character is read back from its bytes**, whatever comes after
them. -/
theorem decodeFrom_encodeChar (c : Char) (rest : Bytes) :
    decodeFrom .fresh (String.utf8EncodeChar c ++ rest) = c :: decodeFrom .fresh rest := by
  have hvalid : Nat.isValidChar c.val.toNat := c.valid
  have hchar : Char.ofNat c.val.toNat = c := Char.ofNat_toNat c
  unfold Nat.isValidChar at hvalid
  unfold String.utf8EncodeChar
  generalize c.val.toNat = v at hvalid hchar ⊢
  simp only
  split
  · -- one byte
    have hb : (UInt8.ofNat v).toNat = v := toNat_ofNat (by omega)
    have hstart : start (UInt8.ofNat v) = ([Char.ofNat v], .fresh) := by
      rw [start_eq, hb, if_pos (by omega)]
    rw [List.singleton_append, decodeFrom_cons, step, hstart, hchar]
    rfl
  split
  · -- two bytes
    have hb : (UInt8.ofNat (v / 64 % 32 + 192)).toNat = v / 64 + 192 := by
      rw [toNat_ofNat (by omega)]
      omega
    have hstart := start_two (b := UInt8.ofNat (v / 64 % 32 + 192)) (by omega) (by omega)
    have hvalue : (v / 64 + 192 - 0xC0) * 64 + v % 64 = v := by omega
    rw [List.cons_append, decodeFrom_cons, step, hstart, hb, List.nil_append, List.singleton_append,
      decodeFrom_last rest (by omega), hvalue, hchar]
  split
  · -- three bytes
    have hb : (UInt8.ofNat (v / 4096 % 16 + 224)).toNat = v / 4096 + 224 := by
      rw [toNat_ofNat (by omega)]
      omega
    have hstart := start_three (b := UInt8.ofNat (v / 4096 % 16 + 224)) (by omega) (by omega)
    have hvalue : ((v / 4096 + 224 - 0xE0) * 64 + v / 64 % 64) * 64 + v % 64 = v := by omega
    -- the value is past those of two bytes, and no half of a pair
    have hlo : (if v / 4096 + 224 = 0xE0 then 0xA0 else 0x80 : UInt8).toNat ≤
        v / 64 % 64 + 128 := by
      split
      · simp
        omega
      · simp
    have hhi : v / 64 % 64 + 128 ≤
        (if v / 4096 + 224 = 0xED then 0x9F else 0xBF : UInt8).toNat := by
      split
      · simp
        omega
      · simp
        omega
    rw [List.cons_append, decodeFrom_cons, step, hstart, hb, List.nil_append, List.cons_append,
      decodeFrom_middle 0 _ (by omega) hlo hhi, List.singleton_append,
      decodeFrom_last rest (by omega), hvalue, hchar]
  · -- four bytes
    have hb : (UInt8.ofNat (v / 262144 % 8 + 240)).toNat = v / 262144 + 240 := by
      rw [toNat_ofNat (by omega)]
      omega
    have hstart := start_four (b := UInt8.ofNat (v / 262144 % 8 + 240)) (by omega) (by omega)
    have hvalue : (((v / 262144 + 240 - 0xF0) * 64 + v / 4096 % 64) * 64 + v / 64 % 64) * 64 +
        v % 64 = v := by omega
    -- the value is past those of three bytes, and no more than the last one
    have hlo : (if v / 262144 + 240 = 0xF0 then 0x90 else 0x80 : UInt8).toNat ≤
        v / 4096 % 64 + 128 := by
      split
      · simp
        omega
      · simp
    have hhi : v / 4096 % 64 + 128 ≤
        (if v / 262144 + 240 = 0xF4 then 0x8F else 0xBF : UInt8).toNat := by
      split
      · simp
        omega
      · simp
        omega
    have hlo' : (0x80 : UInt8).toNat ≤ v / 64 % 64 + 128 := by simp
    have hhi' : v / 64 % 64 + 128 ≤ (0xBF : UInt8).toNat := by
      simp
      omega
    rw [List.cons_append, decodeFrom_cons, step, hstart, hb, List.nil_append, List.cons_append,
      decodeFrom_middle 1 _ (by omega) hlo hhi, List.cons_append,
      decodeFrom_middle 0 _ (by omega) hlo' hhi', List.singleton_append,
      decodeFrom_last rest (by omega), hvalue, hchar]

/-! ## Texts -/

/-- Characters are read back one after the other. -/
theorem decodeFrom_encodeChars (cs : List Char) (rest : Bytes) :
    decodeFrom .fresh (encodeChars cs ++ rest) = cs ++ decodeFrom .fresh rest := by
  induction cs with
  | nil => rfl
  | cons c cs ih =>
    have hcons : encodeChars (c :: cs) = String.utf8EncodeChar c ++ encodeChars cs :=
      List.flatMap_cons
    rw [hcons, List.append_assoc, decodeFrom_encodeChar, ih, List.cons_append]

/-- **A text is read back from its bytes.** -/
theorem decode_encode (s : String) : decode (encode s) = s := by
  have hread := decodeFrom_encodeChars s.toList []
  rw [List.append_nil] at hread
  have hrest : decodeFrom .fresh [] = [] := rfl
  rw [decode, encode, hread, hrest, List.append_nil, String.ofList_toList]

end DesignAtlas.Utf8
