import DesignAtlas.Proofs.Search
import Mathlib.Data.List.Basic

/-!
# Tokens, spans and slices

The tokens of a node are the tokens among the nodes that a walk meets in it,
so a node below another one has no token that the other does not have. Met
backwards they are the same tokens in reverse, and the span of a node runs
from its first token to its last.

What a source has between two offsets is part of what it has between any
two offsets around them (`cut_cut`). So where two sources have the same
bytes, a node whose tokens lie there has the same text (`text_eq_of_within`).
-/

namespace DesignAtlas

namespace Node

variable {n m : Node} {ns ms : List Node} {direction : Direction}

/-! ## Nodes below nodes -/

theorem mem_preorderFrom_of_mem (h : n ∈ preorderFrom ns) (hm : m ∈ n.descendants) :
    m ∈ preorderFrom ns := by
  fun_induction preorderFrom ns with
  | case1 => exact absurd h List.not_mem_nil
  | case2 k pending ih =>
    rcases List.mem_cons.1 h with rfl | h
    · rw [preorderFrom_append]
      exact List.mem_cons_of_mem _ (List.mem_append_left _ hm)
    · exact List.mem_cons_of_mem _ (ih h)

theorem preorder_eq (n : Node) : n.preorder = n :: n.descendants := by
  rw [preorder, preorderFrom_cons, List.append_nil]
  rfl

theorem mem_preorder_of_mem_descendants (h : m ∈ n.descendants) : m ∈ n.preorder := by
  rw [preorder_eq]
  exact List.mem_cons_of_mem _ h

/-- A search finds nodes below only. -/
theorem mem_descendants_of_mem_findAll {f : TagFilter} (h : m ∈ n.findAll f none) :
    m ∈ n.descendants := by
  rw [findAll_none] at h
  exact (List.mem_filter.1 h).1

/-- What is below a node below is below. -/
theorem preorder_subset_of_mem (h : m ∈ n.preorder) : m.preorder ⊆ n.preorder := by
  intro k hk
  rw [preorder_eq] at hk
  rcases List.mem_cons.1 hk with rfl | hk
  · exact h
  · exact mem_preorderFrom_of_mem h hk

/-! ## Tokens -/

/-- The token that a node is. -/
def token? : Node → Option Token
  | token t => some t
  | _ => none

/-- **The tokens are those among the nodes that a walk meets.** -/
theorem tokensFrom_forward (ns : List Node) :
    tokensFrom .forward ns = (preorderFrom ns).filterMap token? := by
  fun_induction tokensFrom Direction.forward ns with
  | case1 => rw [preorderFrom, List.filterMap_nil]
  | case2 t pending ih => rw [ih, preorderFrom_cons, List.filterMap_cons]; rfl
  | case3 pending ih => rw [ih, preorderFrom_cons, List.filterMap_cons]; rfl
  | case4 tag cs pending ih => rw [ih, preorderFrom_cons, List.filterMap_cons]; rfl

theorem tokens_subset_of_mem (h : m ∈ n.preorder) :
    m.tokens .forward ⊆ n.tokens .forward := by
  rw [tokens, tokens, tokensFrom_forward, tokensFrom_forward]
  exact List.filterMap_subset _ (preorder_subset_of_mem h)

theorem tokensFrom_append (direction : Direction) (ns ms : List Node) :
    tokensFrom direction (ns ++ ms) = tokensFrom direction ns ++ tokensFrom direction ms := by
  fun_induction tokensFrom direction ns with
  | case1 => rfl
  | case2 t pending ih => rw [List.cons_append, tokensFrom, ih, List.cons_append]
  | case3 pending ih => rw [List.cons_append, tokensFrom, ih]
  | case4 tag cs pending ih => rw [List.cons_append, tokensFrom, ← List.append_assoc, ih]

/-- **Backwards, the same tokens are met in reverse.** -/
theorem tokensFrom_backward (ns : List Node) :
    tokensFrom .backward ns.reverse = (tokensFrom .forward ns).reverse := by
  fun_induction tokensFrom Direction.forward ns with
  | case1 => rw [List.reverse_nil, tokensFrom, List.reverse_nil]
  | case2 t pending ih =>
    rw [List.reverse_cons, tokensFrom_append, ih, List.reverse_cons, tokensFrom, tokensFrom]
  | case3 pending ih => rw [List.reverse_cons, tokensFrom_append, ih, tokensFrom, tokensFrom,
      List.append_nil]
  | case4 tag cs pending ih =>
    rw [← ih, List.reverse_cons, tokensFrom_append, tokensFrom, List.append_nil]
    simp only [Direction.arrange, List.reverse_append, tokensFrom_append]

theorem tokens_backward (n : Node) : n.tokens .backward = (n.tokens .forward).reverse :=
  tokensFrom_backward [n]

/-! ## Spans -/

theorem firstTokenFrom_eq (direction : Direction) (ns : List Node) :
    firstTokenFrom direction ns = (tokensFrom direction ns).head? := by
  fun_induction tokensFrom direction ns with
  | case1 => rw [firstTokenFrom, List.head?_nil]
  | case2 t pending => rw [firstTokenFrom, List.head?_cons]
  | case3 pending ih => rw [firstTokenFrom, ih]
  | case4 tag cs pending ih => rw [firstTokenFrom, ih]

theorem start?_eq (n : Node) : n.start? = (n.tokens .forward).head?.map Token.start := by
  rw [start?, firstTokenFrom_eq]
  rfl

theorem stop?_eq (n : Node) : n.stop? = (n.tokens .forward).getLast?.map Token.stop := by
  rw [stop?, firstTokenFrom_eq, ← List.head?_reverse, ← tokens_backward]
  rfl

end Node

/-! ## Slices -/

namespace Source

/-- Between offsets from the start of the file, a slice drops what comes
before and takes what is asked for. -/
theorem cut_natCast (bs : Bytes) (a b : ℕ) : cut bs a b = (bs.drop a).take (b - a) := by
  have hclamp : ∀ k : ℕ, clamp bs.length k = min k bs.length := by
    intro k
    rw [clamp, if_neg (by omega), Int.toNat_natCast]
  rw [cut, hclamp, hclamp]
  rcases Nat.le_total a bs.length with ha | ha
  · rw [Nat.min_eq_left ha]
    rcases Nat.le_total b bs.length with hb | hb
    · rw [Nat.min_eq_left hb]
    · have hlen : (bs.drop a).length ≤ b - a := by rw [List.length_drop]; omega
      rw [Nat.min_eq_right hb, ← List.length_drop, List.take_length, List.take_of_length_le hlen]
  · rw [Nat.min_eq_right ha, List.drop_length, List.drop_of_length_le ha, List.take_nil,
      List.take_nil]

/-- **A slice is a slice of any slice around it.** -/
theorem cut_cut (bs : Bytes) {lo hi a b : ℕ} (hlo : lo ≤ a) (hhi : b ≤ hi) :
    cut (cut bs lo hi) (a - lo : ℕ) (b - lo : ℕ) = cut bs a b := by
  rw [cut_natCast, cut_natCast, cut_natCast, List.drop_take, List.drop_drop, List.take_take]
  have hfirst : lo + (a - lo) = a := by omega
  have hcount : min (b - lo - (a - lo)) (hi - lo - (a - lo)) = b - a := by omega
  rw [hfirst, hcount]

/-- **Two sources have the same bytes** from an offset up to another one. -/
def AgreeOn (lo hi : ℕ) (source source' : Source) : Prop :=
  cut source.bytes lo hi = cut source'.bytes lo hi

theorem AgreeOn.slice_eq {source source' : Source} {lo hi a b : ℕ}
    (h : AgreeOn lo hi source source') (hlo : lo ≤ a) (hhi : b ≤ hi) :
    source.slice a b = source'.slice a b := by
  unfold AgreeOn at h
  rw [slice, slice, ← cut_cut source.bytes hlo hhi, ← cut_cut source'.bytes hlo hhi, h]

end Source

namespace Node

variable {n m : Node} {lo hi : ℕ} {source source' : Source}

/-- **The tokens of a node lie between two offsets**, those without any
bytes included. -/
def Within (lo hi : ℕ) (n : Node) : Prop :=
  ∀ t ∈ n.tokens .forward, lo ≤ t.start ∧ t.stop ≤ hi

theorem Within.of_mem (h : n.Within lo hi) (hm : m ∈ n.preorder) : m.Within lo hi :=
  fun t ht => h t (tokens_subset_of_mem hm ht)

/-- The part of a source that a node covers depends only on the bytes
around its tokens. -/
theorem covered_eq_of_within (hagree : source.AgreeOn lo hi source') (h : n.Within lo hi) :
    n.covered source = n.covered source' := by
  rw [covered, covered, start?_eq, stop?_eq]
  rcases hfirst : (n.tokens .forward).head? with - | first
  · rfl
  · rcases hlast : (n.tokens .forward).getLast? with - | last
    · rfl
    · obtain ⟨hstart, -⟩ := h first (List.mem_of_mem_head? hfirst)
      obtain ⟨hlo, hstop⟩ := h last (List.mem_of_mem_getLast? hlast)
      have hspan := last.start_le_stop
      -- the offsets are whole numbers from zero on, since they are not below `lo`
      obtain ⟨a, ha⟩ := Int.eq_ofNat_of_zero_le (show 0 ≤ first.start by omega)
      obtain ⟨b, hb⟩ := Int.eq_ofNat_of_zero_le (show 0 ≤ last.stop by omega)
      simp only [Option.map_some, ha, hb]
      exact hagree.slice_eq (by omega) (by omega)

/-- **So does its text.** -/
theorem text_eq_of_within (hagree : source.AgreeOn lo hi source') (h : n.Within lo hi) :
    n.text source = n.text source' := by
  cases n with
  | token t => exact congrArg t.text?.getD (covered_eq_of_within hagree h)
  | leaf => exact covered_eq_of_within hagree h
  | branch tag cs => exact covered_eq_of_within hagree h

end Node

end DesignAtlas
