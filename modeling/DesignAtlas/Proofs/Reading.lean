import DesignAtlas.Json.Reader
import DesignAtlas.Proofs.Export
import DesignAtlas.Text.Blank
import Mathlib.Data.List.TakeWhile

/-!
# What a text is read as

Two facts about texts that are read as JSON. An object that was read has no
name twice (`nodup_of_read`), since a repeated name takes the place of the
first. And a text of blanks is no value (`read_of_blank`): more characters
count as blank at the ends of a text than may stand between the parts of a
value, and none of them starts one. What is left of a text without the blanks
at its ends is said by `Text.IsStripped`.
-/

namespace DesignAtlas

namespace Json

/-! ## Objects -/

/-- The fields of an object, if it is one, have different names. -/
def NamesDiffer (j : Json) : Prop := ∀ fields, j = .obj fields → (fields.map Prod.fst).Nodup

theorem readFields_nodup (limit : Option Nat) (fuel depth : Nat)
    {fields : List (CodePoints × Json)} {cs rest : List Char} {j : Json}
    (hfields : (fields.map Prod.fst).Nodup)
    (h : readFields limit fuel depth fields cs = .ok (j, rest)) : j.NamesDiffer := by
  induction fuel generalizing fields cs with
  | zero =>
    rw [readFields] at h
    cases h
  | succ fuel ih =>
    unfold readFields at h
    split at h
    · obtain ⟨⟨name, after⟩, -, h⟩ := bind_eq_ok_iff.1 h
      simp only at h
      split at h
      · obtain ⟨⟨value, after⟩, -, h⟩ := bind_eq_ok_iff.1 h
        simp only at h
        have hnext := nodup_keys_upsert name value hfields
        split at h
        · cases h
          rintro fields' ⟨⟩
          exact hnext
        · exact ih hnext h
        · cases h
      · cases h
    · cases h

theorem readItems_arr (limit : Option Nat) (fuel depth : Nat) {items : List Json}
    {cs rest : List Char} {j : Json} (h : readItems limit fuel depth items cs = .ok (j, rest)) :
    ∃ all, j = .arr all := by
  induction fuel generalizing items cs with
  | zero =>
    rw [readItems] at h
    cases h
  | succ fuel ih =>
    unfold readItems at h
    obtain ⟨⟨item, after⟩, -, h⟩ := bind_eq_ok_iff.1 h
    simp only at h
    split at h
    · cases h
      exact ⟨_, rfl⟩
    · exact ih h
    · cases h

theorem readNumber_namesDiffer {limit : Option Nat} {cs rest : List Char} {j : Json}
    (h : readNumber limit cs = .ok (j, rest)) : j.NamesDiffer := by
  unfold readNumber at h
  simp only at h
  split at h
  · cases h
  · split at h
    · split at h
      · cases h
      · cases h
        nofun
    · cases h
      nofun

theorem readScalar_namesDiffer {limit : Option Nat} {cs rest : List Char} {j : Json}
    (h : readScalar limit cs = .ok (j, rest)) : j.NamesDiffer := by
  unfold readScalar at h
  split at h
  · rename_i found hfound
    obtain rfl := Except.ok.inj h
    obtain ⟨⟨word, value⟩, hword, hvalue⟩ := List.exists_of_findSome?_eq_some hfound
    obtain ⟨after, -, hpair⟩ := Option.map_eq_some_iff.1 hvalue
    obtain ⟨rfl, -⟩ := Prod.mk.inj hpair
    simp only [words, List.mem_cons, Prod.mk.injEq, List.not_mem_nil, or_false] at hword
    rcases hword with ⟨-, rfl⟩ | ⟨-, rfl⟩ | ⟨-, rfl⟩ | ⟨-, rfl⟩ | ⟨-, rfl⟩ | ⟨-, rfl⟩ <;> nofun
  · exact readNumber_namesDiffer h

theorem readValue_namesDiffer {limit : Option Nat} {fuel depth : Nat} {cs rest : List Char}
    {j : Json} (h : readValue limit fuel depth cs = .ok (j, rest)) : j.NamesDiffer := by
  cases fuel with
  | zero =>
    rw [readValue] at h
    cases h
  | succ fuel =>
    unfold readValue at h
    split at h
    · obtain ⟨⟨s, after⟩, -, h⟩ := bind_eq_ok_iff.1 h
      cases h
      nofun
    · split at h
      · cases h
      · split at h
        · cases h
          nofun
        · obtain ⟨all, rfl⟩ := readItems_arr limit fuel _ h
          nofun
    · split at h
      · cases h
      · split at h
        · cases h
          rintro fields ⟨⟩
          exact List.nodup_nil
        · have hnone : (([] : List (CodePoints × Json)).map Prod.fst).Nodup := List.nodup_nil
          exact readFields_nodup limit fuel _ hnone h
    · exact readScalar_namesDiffer h

/-- **An object that was read has no name twice.** -/
theorem nodup_of_read {s : String} {fields : List (CodePoints × Json)}
    (h : read s = .ok (.obj fields)) : (fields.map Prod.fst).Nodup := by
  have hread := mapError_eq_ok_iff.1 h
  unfold readText readTextWithin at hread
  split at hread
  · cases hread
  · obtain ⟨⟨value, after⟩, hvalue, hrest⟩ := bind_eq_ok_iff.1 hread
    simp only at hrest
    split at hrest
    · cases hrest
      exact readValue_namesDiffer hvalue fields rfl
    · cases hrest

theorem read_of_readText {s : String} {cs : List Char} {j : Json} (hs : s.toList = cs)
    (h : readText cs = .ok j) : read s = .ok j := by
  rw [read, hs]
  exact mapError_eq_ok_iff.2 h

end Json

/-! ## Blanks -/

namespace Text

/-- **A text without the blanks at its ends**: all that is left out is blank, and
what is left neither starts nor ends with a blank. -/
structure IsStripped (s t : String) : Prop where
  parts : ∃ before after, s.toList = before ++ (t.toList ++ after) ∧
    (∀ c ∈ before, isBlank c = true) ∧ ∀ c ∈ after, isBlank c = true
  head : ∀ c ∈ t.toList.head?, isBlank c = false
  last : ∀ c ∈ t.toList.getLast?, isBlank c = false

theorem dropWhile_eq_self {p : Char → Bool} {cs : List Char} (h : ∀ c ∈ cs.head?, p c = false) :
    cs.dropWhile p = cs := by
  cases cs with
  | nil => rfl
  | cons c cs => exact List.dropWhile_cons_of_neg (by rw [h c rfl]; exact Bool.false_ne_true)

theorem head?_dropWhile {p : Char → Bool} {cs : List Char} {c : Char}
    (h : c ∈ (cs.dropWhile p).head?) : p c = false := by
  have hhead := List.head?_dropWhile_not p cs
  rw [Option.mem_def.1 h] at hhead
  exact hhead

/-- **Stripping a text leaves it without the blanks at its ends.** -/
theorem isStripped_strip (s : String) : IsStripped s (strip s) := by
  let rest := s.toList.dropWhile isBlank
  let after := (rest.reverse.takeWhile isBlank).reverse
  have hleft : (strip s).toList = dropRightWhile isBlank rest := String.toList_ofList
  have hrest : dropRightWhile isBlank rest ++ after = rest := by
    rw [dropRightWhile, ← List.reverse_append, List.takeWhile_append_dropWhile,
      List.reverse_reverse]
  refine ⟨⟨s.toList.takeWhile isBlank, after, ?_, fun c => List.mem_takeWhile_imp, fun c hc => ?_⟩,
    fun c hc => ?_, fun c hc => ?_⟩
  · rw [hleft, hrest, List.takeWhile_append_dropWhile]
  · exact List.mem_takeWhile_imp (List.mem_reverse.1 hc)
  · -- what is left starts as the rest does
    have hhead : c ∈ rest.head? := by
      rw [hleft] at hc
      rw [← hrest, List.head?_append, Option.mem_def.1 hc]
      rfl
    exact head?_dropWhile hhead
  · rw [hleft, dropRightWhile, List.getLast?_reverse] at hc
    exact head?_dropWhile hc

/-- Nothing else is left of it. -/
theorem IsStripped.strip_eq {s t : String} (h : IsStripped s t) : strip s = t := by
  obtain ⟨before, after, hs, hbefore, hafter⟩ := h.parts
  have hend : dropRightWhile isBlank (t.toList ++ after) = t.toList := by
    have hlast : ∀ c ∈ t.toList.reverse.head?, isBlank c = false := by
      rw [List.head?_reverse]
      exact h.last
    have hreverse : ∀ c ∈ after.reverse, isBlank c = true := fun c hc =>
      hafter c (List.mem_reverse.1 hc)
    rw [dropRightWhile, List.reverse_append, List.dropWhile_append_of_pos hreverse,
      dropWhile_eq_self hlast, List.reverse_reverse]
  have hfront : dropRightWhile isBlank (s.toList.dropWhile isBlank) = t.toList := by
    rw [hs, List.dropWhile_append_of_pos hbefore]
    cases ht : t.toList with
    | nil => rw [List.nil_append, List.dropWhile_eq_nil_iff.2 hafter]; rfl
    | cons c cs =>
      have hhead : ∀ c' ∈ (c :: cs ++ after).head?, isBlank c' = false := by
        have := h.head
        rw [ht] at this
        exact this
      rw [dropWhile_eq_self hhead, ← ht, hend]
  rw [strip, hfront, String.ofList_toList]

/-- A text of which nothing is left consists of blanks. -/
theorem isBlank_of_isEmpty_strip {s : String} (h : (strip s).isEmpty = true) :
    ∀ c ∈ s.toList, isBlank c = true := by
  obtain ⟨before, after, hs, hbefore, hafter⟩ := (isStripped_strip s).parts
  rw [String.isEmpty_iff.1 h] at hs
  intro c hc
  rw [hs] at hc
  exact (List.mem_append.1 hc).elim (hbefore c) (hafter c)

end Text

namespace Json

theorem wholePart?_of_blank {cs : List Char} (h : ∀ c ∈ cs, Text.isBlank c = true) :
    wholePart? cs = none := by
  rcases cs with - | ⟨c, rest⟩
  · rfl
  · have hblank := h c List.mem_cons_self
    have hdigit : ¬ c.isDigit = true := by
      intro hdigit
      simp only [Char.isDigit_iff_toNat] at hdigit
      simp only [Text.isBlank, Text.blankRanges, List.any_cons, List.any_nil, Bool.or_eq_true,
        Bool.and_eq_true, decide_eq_true_eq, Bool.false_eq_true, or_false] at hblank
      change 48 ≤ c.toNat ∧ c.toNat ≤ 57 at hdigit
      omega
    unfold wholePart?
    split
    · rename_i hzero
      obtain ⟨rfl, -⟩ := List.cons.inj hzero
      exact absurd hblank (by decide)
    · rename_i hcons
      obtain ⟨rfl, rfl⟩ := List.cons.inj hcons
      rw [if_neg hdigit]
    · rfl

theorem afterWord?_of_blank {w : Char} {ws cs : List Char} (hw : Text.isBlank w = false)
    (h : ∀ c ∈ cs, Text.isBlank c = true) : afterWord? (w :: ws) cs = none := by
  rcases cs with - | ⟨c, rest⟩
  · rfl
  · have hne : ¬ (w == c) = true := by
      intro heq
      rw [beq_iff_eq.1 heq, h c List.mem_cons_self] at hw
      cases hw
    rw [afterWord?, if_neg hne]

/-- None of the words that are values starts with a blank. -/
theorem exists_toList_of_mem_words :
    ∀ x ∈ words, ∃ w ws, x.1.toList = w :: ws ∧ Text.isBlank w = false := by
  simp only [words, List.forall_mem_cons]
  exact ⟨⟨'n', _, rfl, by decide⟩, ⟨'t', _, rfl, by decide⟩, ⟨'f', _, rfl, by decide⟩,
    ⟨'N', _, rfl, by decide⟩, ⟨'I', _, rfl, by decide⟩, ⟨'-', _, rfl, by decide⟩, nofun⟩

theorem readScalar_of_blank (limit : Option Nat) {cs : List Char}
    (h : ∀ c ∈ cs, Text.isBlank c = true) :
    readScalar limit cs = .error (.fault .expectedValue cs) := by
  have hwords : (words.findSome? fun x =>
      (afterWord? x.1.toList cs).map (x.2, ·)) = none := by
    refine List.findSome?_eq_none_iff.2 fun x hx => ?_
    obtain ⟨w, ws, hword, hw⟩ := exists_toList_of_mem_words x hx
    simp only [hword, afterWord?_of_blank hw h, Option.map_none]
  have hsign : spanSign cs = (false, cs) := by
    unfold spanSign
    split
    · exact absurd (h '-' List.mem_cons_self) (by decide)
    · rfl
  rw [readScalar, hwords]
  simp only [readNumber, hsign, wholePart?_of_blank h]

/-- A blank starts no value. -/
theorem readValue_of_blank (limit : Option Nat) (fuel depth : Nat) {cs : List Char}
    (h : ∀ c ∈ cs, Text.isBlank c = true) :
    readValue limit fuel depth cs = .error (.fault .expectedValue cs) := by
  have hstarts : ∀ (d : Char) (rest : List Char), cs = d :: rest → Text.isBlank d = true := by
    rintro d rest rfl
    exact h d List.mem_cons_self
  cases fuel with
  | zero => rw [readValue]
  | succ fuel =>
    unfold readValue
    split
    · exact absurd (hstarts _ _ rfl) (by decide)
    · exact absurd (hstarts _ _ rfl) (by decide)
    · exact absurd (hstarts _ _ rfl) (by decide)
    · exact readScalar_of_blank limit h

/-- **A text of blanks is no value.** -/
theorem read_of_blank {s : String} (h : ∀ c ∈ s.toList, Text.isBlank c = true) :
    ∃ place, read s = .error (.malformed .expectedValue place) := by
  have hmark : ¬ (s.toList.head? == some '\uFEFF') = true := by
    intro hmark
    have hmem := List.mem_of_mem_head? (beq_iff_eq.1 hmark)
    exact absurd (h _ hmem) (by decide)
  have hskipped : ∀ c ∈ skipBlanks s.toList, Text.isBlank c = true := by
    intro c hc
    exact h c ((List.dropWhile_suffix _).subset hc)
  refine ⟨.after s.toList (s.toList.length - (skipBlanks s.toList).length), ?_⟩
  rw [read, readText, readTextWithin, if_neg hmark, readValue_of_blank _ _ _ hskipped]
  rfl

end Json

end DesignAtlas
