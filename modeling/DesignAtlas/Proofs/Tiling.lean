import DesignAtlas.Proofs.Excerpts
import Mathlib.Data.List.Chain

/-!
# Branches put together from their tokens

Reading bytes in two parts gives what reading them at once gives, if the
second part does not start with a byte that could continue a character
(`decode_append`). Inside a character the reader expects nothing but such
bytes (`State.Expects`), so any other byte ends the character, complete or
not, exactly as the end of the bytes does.

So slices that meet at such a byte, or past the end of the source, join to
the slice of both spans (`slice_append`). Tokens that tile the span of a
branch are such slices one after the other (`Token.Tiles`), and their texts
in document order make up the text of the branch.
-/

namespace DesignAtlas

/-! ## Where bytes may be parted -/

namespace Utf8

variable {st : State} {b lo hi : UInt8} {xs ys : Bytes}

/-- A byte from `80` to `BF`, which is never the first one of a character. -/
def Continues (b : UInt8) : Prop := 0x80 ≤ b ∧ b ≤ 0xBF

instance (b : UInt8) : Decidable (Continues b) := inferInstanceAs (Decidable (_ ∧ _))

/-- **What a reader expects inside a character** are bytes that continue
it. -/
def State.Expects : State → Prop
  | .fresh => True
  | .inside _ lo hi _ => 0x80 ≤ lo ∧ hi ≤ 0xBF

theorem expects_ite {p : Prop} [Decidable p] {r r' : List Char × State} (h : r.2.Expects)
    (h' : r'.2.Expects) : (if p then r else r').2.Expects := by
  split
  · exact h
  · exact h'

theorem expects_start (b : UInt8) : (start b).2.Expects := by
  have hwide : (0x80 : UInt8) ≤ 0x80 ∧ (0xBF : UInt8) ≤ 0xBF := by decide
  unfold start
  -- one-byte characters and bytes that start nothing
  refine expects_ite trivial (expects_ite trivial ?_)
  -- two bytes, and three
  refine expects_ite hwide ?_
  refine expects_ite ⟨by decide, by decide⟩ (expects_ite ⟨by decide, by decide⟩ ?_)
  refine expects_ite hwide ?_
  -- four bytes, and bytes past all characters
  refine expects_ite ⟨by decide, by decide⟩ (expects_ite hwide ?_)
  exact expects_ite ⟨by decide, by decide⟩ trivial

/-- A byte outside the bounds is read again from the start. -/
theorem step_outside (missing acc : ℕ) (h : ¬ (lo ≤ b ∧ b ≤ hi)) :
    step (.inside missing lo hi acc) b = (replacement :: (start b).1, (start b).2) :=
  if_neg h

/-- After every byte a reader expects such bytes. -/
theorem expects_step (st : State) (b : UInt8) : (step st b).2.Expects := by
  cases st with
  | fresh => exact expects_start b
  | inside missing lo hi acc =>
    by_cases hin : lo ≤ b ∧ b ≤ hi
    · have hlo := UInt8.le_iff_toNat_le.1 hin.1
      have hhi := UInt8.le_iff_toNat_le.1 hin.2
      cases missing with
      | zero =>
        rw [step_last hlo hhi]
        trivial
      | succ missing =>
        rw [step_middle missing hlo hhi]
        exact ⟨by decide, by decide⟩
    · rw [step_outside missing acc hin]
      exact expects_start b

/-- **A byte that continues nothing ends what came before it** as the end of
the bytes does. -/
theorem decodeFrom_of_not_continues (hst : st.Expects) (hys : ∀ b ∈ ys.head?, ¬ Continues b) :
    decodeFrom st ys = finish st ++ decodeFrom .fresh ys := by
  cases ys with
  | nil => rw [decodeFrom, decodeFrom, finish, List.append_nil]
  | cons b ys =>
    cases st with
    | fresh => rw [finish, List.nil_append]
    | inside missing lo hi acc =>
      have hout : ¬ (lo ≤ b ∧ b ≤ hi) := by
        intro hin
        exact hys b rfl ⟨UInt8.le_trans hst.1 hin.1, UInt8.le_trans hin.2 hst.2⟩
      rw [decodeFrom_cons, step_outside missing acc hout, decodeFrom_cons, finish, step,
        List.cons_append, List.singleton_append]

/-- **Bytes may be read in two parts** where the second does not continue a
character. The induction is on the first part, for every state in which it
may be met. -/
theorem decodeFrom_append (hst : st.Expects) (hys : ∀ b ∈ ys.head?, ¬ Continues b) :
    decodeFrom st (xs ++ ys) = decodeFrom st xs ++ decodeFrom .fresh ys := by
  induction xs generalizing st with
  | nil => exact decodeFrom_of_not_continues hst hys
  | cons b xs ih =>
    rw [List.cons_append, decodeFrom_cons, decodeFrom_cons, ih (expects_step st b),
      List.append_assoc]

theorem decode_append (hys : ∀ b ∈ ys.head?, ¬ Continues b) :
    decode (xs ++ ys) = decode xs ++ decode ys := by
  have hfresh : State.fresh.Expects := trivial
  rw [decode, decodeFrom_append hfresh hys, String.ofList_append, decode, decode]

end Utf8

/-! ## Slices that meet -/

namespace Source

variable {source : Source} {a b c : ℕ}

theorem cut_append (bs : Bytes) (hab : a ≤ b) (hbc : b ≤ c) :
    cut bs a b ++ cut bs b c = cut bs a c := by
  have hcount : c - a = b - a + (c - b) := by omega
  have hfirst : a + (b - a) = b := by omega
  rw [cut_natCast, cut_natCast, cut_natCast, hcount, List.take_add, List.drop_drop, hfirst]

/-- **A source may be parted at an offset** if it is at or past the end of the
source, or at a byte that does not continue a character. The offset is an
index: a span from an offset that counts from the end to an index may be empty
where its parts are not. -/
def PartsAt (source : Source) (offset : ℤ) : Prop :=
  source.bytes.length ≤ offset ∨
    ∃ (i : ℕ) (b : UInt8), offset = i ∧ source.bytes[i]? = some b ∧ ¬ Utf8.Continues b

theorem PartsAt.nonneg {offset : ℤ} (h : source.PartsAt offset) : 0 ≤ offset := by
  rcases h with h | ⟨i, b, rfl, -, -⟩ <;> omega

/-- What is cut from there on does not start inside a character. -/
theorem PartsAt.not_continues (h : source.PartsAt b) :
    ∀ x ∈ (cut source.bytes b c).head?, ¬ Utf8.Continues x := by
  intro x hx
  have hat : source.bytes[b]? = some x := by
    rw [List.head?_eq_getElem?, getElem?_cut, Option.mem_def] at hx
    split at hx
    · exact hx
    · cases hx
  rcases h with hend | ⟨i, y, hi, hy, hout⟩
  · have hnone : source.bytes[b]? = none := List.getElem?_eq_none (by omega)
    rw [hnone] at hat
    cases hat
  · obtain rfl : b = i := by omega
    obtain rfl : x = y := Option.some.inj (hat.symm.trans hy)
    exact hout

/-- **Slices that meet where the source may be parted join.** -/
theorem slice_append (hab : a ≤ b) (hbc : b ≤ c) (h : source.PartsAt b) :
    source.slice a c = source.slice a b ++ source.slice b c := by
  rw [slice, ← cut_append source.bytes hab hbc, Utf8.decode_append h.not_continues, slice, slice]

end Source

/-! ## Tokens that tile a span -/

/-- **Tokens that tile a span of a source**: none carries a text of its own,
each stops where the next one starts, and the source may be parted at every
start. -/
structure Token.Tiles (source : Source) (ts : List Token) : Prop where
  plain : ∀ t ∈ ts, t.text? = none
  adjacent : ts.IsChain fun t u => t.stop = u.start
  parted : ∀ t ∈ ts, source.PartsAt t.start

namespace Token.Tiles

variable {source : Source} {t u last : Token} {ts : List Token}

theorem tail (h : Tiles source (t :: ts)) : Tiles source ts where
  plain := fun u hu => h.plain u (List.mem_cons_of_mem t hu)
  adjacent := h.adjacent.tail
  parted := fun u hu => h.parted u (List.mem_cons_of_mem t hu)

/-- Adjacent tokens go on to the right. -/
theorem start_le_stop (h : Tiles source (t :: ts)) (hlast : (t :: ts).getLast? = some last) :
    t.start ≤ last.stop := by
  induction ts generalizing t with
  | nil =>
    obtain rfl : t = last := Option.some.inj hlast
    exact t.start_le_stop
  | cons u ts ih =>
    have hmeet : t.stop = u.start := (List.isChain_cons_cons.1 h.adjacent).1
    have hrest : u.start ≤ last.stop := ih h.tail (by rwa [List.getLast?_cons_cons] at hlast)
    have := t.start_le_stop
    omega

/-- **The slice over all tokens is made up of their slices.** Each token adds
its own slice in front of that of the tokens after it. -/
theorem slice_eq_join (h : Tiles source (t :: ts)) (hlast : (t :: ts).getLast? = some last) :
    source.slice t.start last.stop =
      String.join ((t :: ts).map fun u => source.slice u.start u.stop) := by
  induction ts generalizing t with
  | nil =>
    obtain rfl : t = last := Option.some.inj hlast
    rw [List.map_singleton, String.join_cons, String.join_nil, String.append_empty]
  | cons u ts ih =>
    have hmeet : t.stop = u.start := (List.isChain_cons_cons.1 h.adjacent).1
    rw [List.getLast?_cons_cons] at hlast
    have hleft := t.start_le_stop
    have hright : u.start ≤ last.stop := h.tail.start_le_stop hlast
    have hparted : source.PartsAt u.start := h.parted u (by simp)
    rw [List.map_cons, String.join_cons, ← ih h.tail hlast, hmeet]
    obtain ⟨a, ha⟩ := Int.eq_ofNat_of_zero_le (h.parted t (by simp)).nonneg
    obtain ⟨b, hb⟩ := Int.eq_ofNat_of_zero_le hparted.nonneg
    obtain ⟨c, hc⟩ := Int.eq_ofNat_of_zero_le (show 0 ≤ last.stop by omega)
    rw [hb] at hparted
    rw [ha, hb, hc]
    exact Source.slice_append (by omega) (by omega) hparted

end Token.Tiles

namespace Node

theorem text_token {t : Token} (source : Source) (h : t.text? = none) :
    (token t).text source = source.slice t.start t.stop := by
  rw [text, h, Option.getD_none, covered, start?, stop?, firstTokenFrom, firstTokenFrom]
  rfl

theorem covered_eq_join {n : Node} {source : Source} {ts : List Token}
    (hts : n.tokens .forward = ts) (h : Token.Tiles source ts) :
    n.covered source = String.join (ts.map fun t => source.slice t.start t.stop) := by
  rw [covered, start?_eq, stop?_eq, hts]
  cases ts with
  | nil => rfl
  | cons t ts =>
    obtain ⟨last, hlast⟩ : ∃ last, (t :: ts).getLast? = some last :=
      ⟨_, List.getLast?_eq_some_getLast (List.cons_ne_nil t ts)⟩
    rw [List.head?_cons, hlast]
    exact h.slice_eq_join hlast

/-- **The text of a branch is put together from its tokens.** Over any bytes,
texts or not, if the tokens below a branch carry no text of their own, each
stops where the next one starts, and every start is at or past the end of the
source or at a byte outside `80` to `BF`, then the text of the branch is what
the texts of its tokens give in document order. -/
theorem text_eq_join_tokens (source : Source) (tag : String) (cs : List Node)
    (h : Token.Tiles source ((listingAll cs).filterMap token?)) :
    (branch tag cs).text source =
      String.join (((listingAll cs).filterMap token?).map fun t => (token t).text source) := by
  have htexts : ((listingAll cs).filterMap token?).map (fun t => (token t).text source) =
      ((listingAll cs).filterMap token?).map fun t => source.slice t.start t.stop :=
    List.map_congr_left fun t ht => text_token source (h.plain t ht)
  rw [htexts, text, covered_eq_join (tokens_branch tag cs) h]
  exact nofun

/-- The letter `a`, the first two of the three bytes of another letter, `bé`,
and a byte that is in no text. -/
def patchySource : Source := .stored [0x61, 0xE2, 0x82, 0x62, 0xC3, 0xA9, 0xFF]

/-- Tokens over these bytes: one that ends in the middle of a letter, one
without bytes, and two that go past the end. -/
def patchyTokens : List Node :=
  [.token ⟨"cut", 0, 3, none, by decide⟩, .leaf,
    .branch "inner" [.token ⟨"empty", 3, 3, none, by decide⟩,
      .token ⟨"letters", 3, 6, none, by decide⟩],
    .branch "nothing" [], .token ⟨"stray", 6, 8, none, by decide⟩,
    .token ⟨"past", 8, 12, none, by decide⟩]

/-- The letter that is cut short is one replacement character, read in one
piece or token by token. -/
theorem cut_letter_read_alike :
    Token.Tiles patchySource ((listingAll patchyTokens).filterMap token?) ∧
      (branch "whole" patchyTokens).text patchySource = "a\uFFFDbé\uFFFD" ∧
      ((listingAll patchyTokens).filterMap token?).map (fun t => (token t).text patchySource) =
        ["a\uFFFD", "", "bé", "\uFFFD", ""] := by
  have htiles : Token.Tiles patchySource ((listingAll patchyTokens).filterMap token?) := by
    refine ⟨by decide +kernel, by decide +kernel, ?_⟩
    have hinside : ∀ t ∈ (listingAll patchyTokens).filterMap token?, t.start < 7 →
        ∃ i < 7, t.start = (i : ℕ) ∧ ∃ b ∈ patchySource.bytes[i]?, ¬ Utf8.Continues b := by
      decide +kernel
    intro t ht
    rcases lt_or_ge t.start 7 with hlt | hge
    · obtain ⟨i, -, hi, b, hb, hout⟩ := hinside t ht hlt
      exact .inr ⟨i, b, hi, hb, hout⟩
    · exact .inl hge
  have htexts : ((listingAll patchyTokens).filterMap token?).map
      (fun t => (token t).text patchySource) = ["a\uFFFD", "", "bé", "\uFFFD", ""] := by
    decide +kernel
  refine ⟨htiles, ?_, htexts⟩
  rw [text_eq_join_tokens patchySource "whole" patchyTokens htiles, htexts]
  rfl

end Node

end DesignAtlas
