import DesignAtlas.Proofs.Listing

/-!
# Spans inside spans

The tokens below a branch are the tokens of its listing, and backwards they
are the same in reverse. The span of a branch runs from the start of the
first to the stop of the last, and a branch without tokens has none.

Where the tokens of a tree are in order (`Token.InOrder`), so are those of
every node in it, since they are a stretch of them. So no span ends before
it starts, and the span of a branch contains those of the nodes below it
(`Token.InOrder.contains`).

Offsets from zero on count from the start of the source, and negative ones
from its end. Among offsets of one kind, a span inside another covers a part
of what the other covers, and the part is where the offsets say
(`cut_cut_of_nonneg`, `cut_cut_of_neg`). A span from a negative offset to
one from zero on may cover less than a span inside it
(`crossing_span_covers_less`).
-/

namespace DesignAtlas

namespace Node

variable {n m : Node} {a b : ℤ}

/-! ## The tokens of a branch -/

theorem tokens_forward (n : Node) : n.tokens .forward = n.preorder.filterMap token? :=
  tokensFrom_forward [n]

/-- **The tokens of a branch are those below it**, in document order. -/
theorem tokens_branch (tag : String) (cs : List Node) :
    (branch tag cs).tokens .forward = (listingAll cs).filterMap token? := by
  rw [tokens_forward, preorder_eq_listing, listing_eq, List.filterMap_cons_none rfl, children]

theorem tokens_branch_eq_nil_iff (tag : String) (cs : List Node) :
    (branch tag cs).tokens .forward = [] ↔ ∀ m ∈ listingAll cs, m.token? = none := by
  rw [tokens_branch, List.filterMap_eq_nil_iff]

theorem start?_eq_none_iff : n.start? = none ↔ n.tokens .forward = [] := by
  rw [start?_eq, Option.map_eq_none_iff, List.head?_eq_none_iff]

theorem stop?_eq_none_iff : n.stop? = none ↔ n.tokens .forward = [] := by
  rw [stop?_eq, Option.map_eq_none_iff, List.getLast?_eq_none_iff]

/-! ## Stretches of a walk -/

/-- **The walk of a node met is a stretch of the walk that meets it.** -/
theorem preorder_infix_of_mem {ns : List Node} (h : m ∈ preorderFrom ns) :
    m.preorder <:+: preorderFrom ns := by
  fun_induction preorderFrom ns with
  | case1 => exact absurd h List.not_mem_nil
  | case2 k pending ih =>
    rcases List.mem_cons.1 h with rfl | h
    · have hsplit : m :: preorderFrom (m.children ++ pending) =
          m.preorder ++ preorderFrom pending := by
        rw [preorder_eq, preorderFrom_append, List.cons_append]
        rfl
      rw [hsplit]
      exact (List.prefix_append _ _).isInfix
    · exact List.infix_cons (ih h)

theorem tokens_infix_of_mem (h : m ∈ n.preorder) : m.tokens .forward <:+: n.tokens .forward := by
  rw [tokens_forward, tokens_forward]
  exact (preorder_infix_of_mem h).filterMap _

/-! ## Spans -/

/-- **The span of a node**: its first token starts at `a`, and its last one
stops at `b`. -/
def Spans (n : Node) (a b : ℤ) : Prop := n.start? = some a ∧ n.stop? = some b

theorem spans_iff : n.Spans a b ↔ ∃ first last, (n.tokens .forward).head? = some first ∧
    (n.tokens .forward).getLast? = some last ∧ first.start = a ∧ last.stop = b := by
  rw [Spans, start?_eq, stop?_eq, Option.map_eq_some_iff, Option.map_eq_some_iff]
  constructor
  · rintro ⟨⟨first, hfirst, ha⟩, last, hlast, hb⟩
    exact ⟨first, last, hfirst, hlast, ha, hb⟩
  · rintro ⟨first, last, hfirst, hlast, ha, hb⟩
    exact ⟨⟨first, hfirst, ha⟩, last, hlast, hb⟩

theorem exists_spans {t : Token} (h : t ∈ n.tokens .forward) : ∃ a b, n.Spans a b := by
  have hne : n.tokens .forward ≠ [] := List.ne_nil_of_mem h
  exact ⟨_, _, spans_iff.2 ⟨_, _, List.head?_eq_some_head hne,
    List.getLast?_eq_some_getLast hne, rfl, rfl⟩⟩

end Node

/-! ## Tokens in order -/

namespace Token

/-- **Tokens in order**: neither their starts nor their stops decrease. -/
structure InOrder (ts : List Token) : Prop where
  starts : ts.Pairwise fun s t => s.start ≤ t.start
  stops : ts.Pairwise fun s t => s.stop ≤ t.stop

namespace InOrder

variable {ts part : List Token} {first last t : Token} {n m : Node} {a b : ℤ}

theorem of_infix (h : InOrder ts) (hpart : part <:+: ts) : InOrder part :=
  ⟨h.starts.sublist hpart.sublist, h.stops.sublist hpart.sublist⟩

theorem head_le (h : InOrder ts) (hfirst : ts.head? = some first) (ht : t ∈ ts) :
    first.start ≤ t.start := by
  obtain ⟨later, rfl⟩ := List.head?_eq_some_iff.1 hfirst
  rcases List.mem_cons.1 ht with rfl | ht
  · exact le_refl _
  · exact (List.pairwise_cons.1 h.starts).1 t ht

theorem le_getLast (h : InOrder ts) (hlast : ts.getLast? = some last) (ht : t ∈ ts) :
    t.stop ≤ last.stop := by
  obtain ⟨earlier, rfl⟩ := List.getLast?_eq_some_iff.1 hlast
  rcases List.mem_append.1 ht with ht | ht
  · exact (List.pairwise_append.1 h.stops).2.2 t ht last (List.mem_singleton_self last)
  · rw [List.mem_singleton.1 ht]

/-- **No span ends before it starts.** The first token does not, and the last
one stops no earlier. -/
theorem start_le_stop (h : InOrder (n.tokens .forward)) (hspan : n.Spans a b) : a ≤ b := by
  obtain ⟨first, last, hfirst, hlast, rfl, rfl⟩ := Node.spans_iff.1 hspan
  exact first.start_le_stop.trans (h.le_getLast hlast (List.mem_of_mem_head? hfirst))

/-- **A span contains those below.** The tokens of a node below are among
those of the node. -/
theorem contains (h : InOrder (n.tokens .forward)) (hm : m ∈ n.descendants)
    (hspan : m.Spans a b) : ∃ lo hi, n.Spans lo hi ∧ lo ≤ a ∧ b ≤ hi := by
  obtain ⟨first, last, hfirst, hlast, rfl, rfl⟩ := Node.spans_iff.1 hspan
  have hsub := Node.tokens_subset_of_mem (Node.mem_preorder_of_mem_descendants hm)
  -- the node has tokens, since the node below has, so it has a span too
  have hfirstMem := hsub (List.mem_of_mem_head? hfirst)
  have hlastMem := hsub (List.mem_of_mem_getLast? hlast)
  obtain ⟨lo, hi, hn⟩ := Node.exists_spans hfirstMem
  obtain ⟨outerFirst, outerLast, houterFirst, houterLast, rfl, rfl⟩ := Node.spans_iff.1 hn
  exact ⟨_, _, hn, h.head_le houterFirst hfirstMem, h.le_getLast houterLast hlastMem⟩

end InOrder

end Token

/-! ## What spans cover -/

namespace Source

variable {lo hi a b : ℤ}

/-- Offsets point where the indices do that they are clamped to. -/
theorem cut_clamp (bs : Bytes) (a b : ℤ) :
    cut bs (clamp bs.length a) (clamp bs.length b) = cut bs a b := by
  have hclamp : ∀ x : ℤ, clamp bs.length (clamp bs.length x) = clamp bs.length x := by
    intro x
    unfold clamp
    split <;> split <;> omega
  rw [cut, hclamp, hclamp, cut]

theorem cut_cut_of_clamp (bs : Bytes) (hlo : clamp bs.length lo ≤ clamp bs.length a)
    (hhi : clamp bs.length b ≤ clamp bs.length hi) :
    cut (cut bs lo hi) (clamp bs.length a - clamp bs.length lo : ℕ)
      (clamp bs.length b - clamp bs.length lo : ℕ) = cut bs a b := by
  rw [← cut_clamp bs lo hi, ← cut_clamp bs a b]
  exact cut_cut bs hlo hhi

/-- **Among offsets from zero on**, a slice is the part of a slice around it
that lies as far in as the offsets do. -/
theorem cut_cut_of_nonneg (bs : Bytes) (hlo : 0 ≤ lo) (ha : lo ≤ a) (hab : a ≤ b) (hb : b ≤ hi) :
    cut (cut bs lo hi) (a - lo) (b - lo) = cut bs a b := by
  obtain ⟨lo, rfl⟩ := Int.eq_ofNat_of_zero_le hlo
  obtain ⟨hi, rfl⟩ := Int.eq_ofNat_of_zero_le (show 0 ≤ hi by omega)
  obtain ⟨a, rfl⟩ := Int.eq_ofNat_of_zero_le (show 0 ≤ a by omega)
  obtain ⟨b, rfl⟩ := Int.eq_ofNat_of_zero_le (show 0 ≤ b by omega)
  -- no offset is clamped at the start, so differences of offsets are differences of indices
  rw [← Int.ofNat_sub (by omega), ← Int.ofNat_sub (by omega)]
  exact cut_cut bs (by omega) (by omega)

/-- **Among negative offsets**, the same with the indices they point to: an
offset before the start of the source points to the start. -/
theorem cut_cut_of_neg (bs : Bytes) (ha : lo ≤ a) (hab : a ≤ b) (hb : b ≤ hi) (hhi : hi < 0) :
    cut (cut bs lo hi) (clamp bs.length a - clamp bs.length lo : ℕ)
      (clamp bs.length b - clamp bs.length lo : ℕ) = cut bs a b := by
  -- across zero this fails: `-1` points to the last byte, and `0` to the first
  have hmono : ∀ x y : ℤ, x ≤ y → y < 0 → clamp bs.length x ≤ clamp bs.length y := by
    intro x y hxy hy
    unfold clamp
    rw [if_pos hy, if_pos (by omega)]
    omega
  exact cut_cut_of_clamp bs (hmono lo a ha (by omega)) (hmono b hi hb hhi)

end Source

namespace Tree

open Node Source

/-- **The tokens of a branch give its span, and spans contain those below.**
The tokens of a branch are those below it in document order, and met
backwards the same in reverse. It starts with the first and stops with the
last, and has neither start nor stop exactly if there is no token below. In
a tree whose tokens are in order no span ends before it starts, and the span
of a node contains that of each node below it. What the inner span covers is
then the corresponding part of what the outer one covers, unless the outer
one starts at a negative offset and does not stop at one. -/
theorem spans_contain_below :
    (∀ tag cs, (branch tag cs).tokens .forward = (listingAll cs).filterMap token? ∧
      (branch tag cs).tokens .backward = ((branch tag cs).tokens .forward).reverse ∧
      (branch tag cs).start? = ((branch tag cs).tokens .forward).head?.map Token.start ∧
      (branch tag cs).stop? = ((branch tag cs).tokens .forward).getLast?.map Token.stop ∧
      ((branch tag cs).start? = none ↔ ∀ m ∈ listingAll cs, m.token? = none) ∧
      ((branch tag cs).stop? = none ↔ ∀ m ∈ listingAll cs, m.token? = none)) ∧
    ∀ t : Tree, Token.InOrder (t.root.tokens .forward) →
      (∀ n ∈ t.root.listing, ∀ a b, n.Spans a b → a ≤ b) ∧
      ∀ n ∈ t.root.listing, ∀ m ∈ n.listing.tail, ∀ a b, m.Spans a b →
        ∃ lo hi, n.Spans lo hi ∧ lo ≤ a ∧ b ≤ hi ∧
          (0 ≤ lo →
            cut (cut t.source.bytes lo hi) (a - lo) (b - lo) = cut t.source.bytes a b) ∧
          (hi < 0 →
            cut (cut t.source.bytes lo hi)
              (clamp t.source.bytes.length a - clamp t.source.bytes.length lo : ℕ)
              (clamp t.source.bytes.length b - clamp t.source.bytes.length lo : ℕ) =
            cut t.source.bytes a b) := by
  constructor
  · intro tag cs
    refine ⟨tokens_branch tag cs, tokens_backward _, start?_eq _, stop?_eq _, ?_, ?_⟩
    · rw [start?_eq_none_iff, tokens_branch_eq_nil_iff]
    · rw [stop?_eq_none_iff, tokens_branch_eq_nil_iff]
  · intro t hordered
    rw [← preorder_eq_listing]
    have hinner : ∀ n ∈ t.root.preorder, Token.InOrder (n.tokens .forward) :=
      fun n hn => hordered.of_infix (tokens_infix_of_mem hn)
    refine ⟨fun n hn a b hspan => (hinner n hn).start_le_stop hspan, ?_⟩
    intro n hn m hm a b hspan
    rw [← descendants_eq_tail] at hm
    obtain ⟨lo, hi, hspans, ha, hb⟩ := (hinner n hn).contains hm hspan
    have hab : a ≤ b := (hinner m (mem_preorderFrom_of_mem hn hm)).start_le_stop hspan
    exact ⟨lo, hi, hspans, ha, hb, fun hlo => cut_cut_of_nonneg _ hlo ha hab hb,
      fun hhi => cut_cut_of_neg _ ha hab hb hhi⟩

/-- The header `module fa;` with an empty place between its words. -/
def shortHeader : Node :=
  .branch "kModuleHeader" [.token ⟨"module", 0, 6, none, by decide⟩, .leaf,
    .token ⟨"SymbolIdentifier", 7, 9, none, by decide⟩, .token ⟨";", 9, 10, none, by decide⟩]

/-- A module without contents. -/
def shortModule : Tree where
  tag := "kDescriptionList"
  children := [.branch "kModuleDeclaration"
    [shortHeader, .branch "kEmpty" [], .token ⟨"endmodule", 11, 20, none, by decide⟩]]
  source := .text "module fa; endmodule"

/-- Tokens that are counted from the end of the source, the first from
before its start. -/
def countedFromEnd : Tree where
  tag := "root"
  children := [.token ⟨"first", -9, -2, none, by decide⟩,
    .token ⟨"second", -3, -1, none, by decide⟩]
  source := .stored [97, 98, 99, 100]

/-- The name of the module is two bytes of its header. The second token that
is counted from the end is two bytes of the three that its tree covers. -/
theorem inner_tokens_covered :
    (Token.InOrder (shortModule.root.tokens .forward) ∧ shortHeader.Spans 0 10 ∧
      (Node.token ⟨"SymbolIdentifier", 7, 9, none, by decide⟩).Spans 7 9 ∧
      cut (cut shortModule.source.bytes 0 10) 7 9 = cut shortModule.source.bytes 7 9) ∧
    Token.InOrder (countedFromEnd.root.tokens .forward) ∧ countedFromEnd.root.Spans (-9) (-1) ∧
      (Node.token ⟨"second", -3, -1, none, by decide⟩).Spans (-3) (-1) ∧
      cut (cut countedFromEnd.source.bytes (-9) (-1)) 1 3 =
        cut countedFromEnd.source.bytes (-3) (-1) := by
  constructor
  · have htokens : shortModule.root.tokens .forward =
        [⟨"module", 0, 6, none, by decide⟩, ⟨"SymbolIdentifier", 7, 9, none, by decide⟩,
          ⟨";", 9, 10, none, by decide⟩, ⟨"endmodule", 11, 20, none, by decide⟩] := by
      decide +kernel
    have hordered : Token.InOrder (shortModule.root.tokens .forward) := by
      rw [htokens]
      exact ⟨by decide, by decide⟩
    have hheader : shortHeader ∈ shortModule.root.listing := .tail _ (.tail _ (.head _))
    have hname : Node.token ⟨"SymbolIdentifier", 7, 9, none, by decide⟩ ∈
        shortHeader.listing.tail := .tail _ (.tail _ (.head _))
    have houter : shortHeader.Spans 0 10 := ⟨by decide +kernel, by decide +kernel⟩
    have hspan : (Node.token ⟨"SymbolIdentifier", 7, 9, none, by decide⟩).Spans 7 9 :=
      ⟨by decide +kernel, by decide +kernel⟩
    obtain ⟨lo, hi, hspans, -, -, hcovered, -⟩ :=
      (spans_contain_below.2 shortModule hordered).2 _ hheader _ hname 7 9 hspan
    obtain rfl : lo = 0 := Option.some.inj (hspans.1.symm.trans houter.1)
    obtain rfl : hi = 10 := Option.some.inj (hspans.2.symm.trans houter.2)
    exact ⟨hordered, houter, hspan, hcovered (le_refl 0)⟩
  · have htokens : countedFromEnd.root.tokens .forward =
        [⟨"first", -9, -2, none, by decide⟩, ⟨"second", -3, -1, none, by decide⟩] := by
      decide +kernel
    have hordered : Token.InOrder (countedFromEnd.root.tokens .forward) := by
      rw [htokens]
      exact ⟨by decide, by decide⟩
    have houter : countedFromEnd.root.Spans (-9) (-1) := ⟨by decide +kernel, by decide +kernel⟩
    have hspan : (Node.token ⟨"second", -3, -1, none, by decide⟩).Spans (-3) (-1) :=
      ⟨by decide +kernel, by decide +kernel⟩
    obtain ⟨lo, hi, hspans, -, -, -, hcovered⟩ :=
      (spans_contain_below.2 countedFromEnd hordered).2 _ (.head _) _ (.tail _ (.head _)) (-3) (-1)
        hspan
    obtain rfl : lo = -9 := Option.some.inj (hspans.1.symm.trans houter.1)
    obtain rfl : hi = -1 := Option.some.inj (hspans.2.symm.trans houter.2)
    exact ⟨hordered, houter, hspan, hcovered (by decide)⟩

/-- A token that starts one byte before the end of the source, and one
inside it. -/
def crossingTree : Tree where
  tag := "root"
  children := [.token ⟨"first", -1, 1, none, by decide⟩, .token ⟨"second", 1, 3, none, by decide⟩]
  source := .stored [97, 98, 99, 100]

/-- **A span that crosses zero may cover nothing** although a span inside it
does: the tokens are in order, and the second one covers two bytes that no
part of the root's bytes has. -/
theorem crossing_span_covers_less :
    Token.InOrder (crossingTree.root.tokens .forward) ∧ crossingTree.root.Spans (-1) 3 ∧
      Node.token ⟨"second", 1, 3, none, by decide⟩ ∈ crossingTree.root.listing.tail ∧
      (Node.token ⟨"second", 1, 3, none, by decide⟩).Spans 1 3 ∧
      ∀ x y, cut (cut crossingTree.source.bytes (-1) 3) x y ≠ cut crossingTree.source.bytes 1 3 := by
  have htokens : crossingTree.root.tokens .forward =
      [⟨"first", -1, 1, none, by decide⟩, ⟨"second", 1, 3, none, by decide⟩] := by
    decide +kernel
  refine ⟨?_, ⟨by decide +kernel, by decide +kernel⟩, .tail _ (.head _),
    ⟨by decide +kernel, by decide +kernel⟩, ?_⟩
  · rw [htokens]
    exact ⟨by decide, by decide⟩
  · intro x y
    have hnothing : cut crossingTree.source.bytes (-1) 3 = [] := by decide
    have hinner : cut crossingTree.source.bytes 1 3 = [98, 99] := by decide
    rw [hnothing, hinner, cut, List.drop_nil, List.take_nil]
    exact (List.cons_ne_nil _ _).symm

end Tree

end DesignAtlas
