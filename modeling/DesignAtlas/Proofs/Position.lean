import DesignAtlas.Proofs.Search
import Mathlib.Data.List.Lex
import Mathlib.Data.List.Sort

/-!
# Positions in a tree

Equal nodes may stand at several places of a tree, so a node in it is given
by its position: the numbers of the children that lead to it. Positions are
compared like words, which is document order, and the nodes of a subtree are
those whose positions begin with that of its root.

`Node.located` lists the nodes of a tree with their positions. They come in
the order of their positions, and without the positions the list is what a
walk meets. So the matches of a search stand at the positions with accepted
nodes, in order (`findAll_eq_places`), and this order is known as soon as
the positions are.
-/

namespace DesignAtlas

namespace Node

/-- **The node at a position.** -/
def at? (n : Node) : List ℕ → Option Node
  | [] => some n
  | i :: p => n.children[i]?.bind fun c => c.at? p

mutual

/-- A node and all nodes below it with their positions, parents before their
children. -/
def located : Node → List (List ℕ × Node)
  | token t => [([], token t)]
  | leaf => [([], leaf)]
  | branch tag cs => ([], branch tag cs) :: locatedFrom 0 cs

/-- The nodes of some siblings with their positions. The first sibling has
the number `next`. -/
def locatedFrom (next : ℕ) : List Node → List (List ℕ × Node)
  | [] => []
  | n :: ns => (located n).map (fun x => (next :: x.1, x.2)) ++ locatedFrom (next + 1) ns

end

variable {n m c : Node} {ns : List Node} {p q : List ℕ} {i next : ℕ}

theorem located_eq (n : Node) : n.located = ([], n) :: locatedFrom 0 n.children := by
  cases n <;> rfl

/-! ## The nodes of the list -/

theorem mem_locatedFrom_iff {x : List ℕ × Node} :
    x ∈ locatedFrom next ns ↔
      ∃ i c q, ns[i]? = some c ∧ (q, x.2) ∈ c.located ∧ x.1 = (next + i) :: q := by
  induction ns generalizing next with
  | nil => simp [locatedFrom]
  | cons n ns ih =>
    rw [locatedFrom, List.mem_append, List.mem_map, ih]
    constructor
    · rintro (⟨⟨q, m⟩, hm, rfl⟩ | ⟨i, c, q, hc, hm, hx⟩)
      · exact ⟨0, n, q, rfl, hm, rfl⟩
      · exact ⟨i + 1, c, q, hc, hm, by rw [hx, Nat.add_assoc, Nat.add_comm 1 i]⟩
    · rintro ⟨i, c, q, hc, hm, hx⟩
      cases i with
      | zero =>
        obtain rfl := Option.some.inj hc
        exact Or.inl ⟨(q, x.2), hm, Prod.ext hx.symm rfl⟩
      | succ i => exact Or.inr ⟨i, c, q, hc, hm, by rw [hx, Nat.add_assoc, Nat.add_comm 1 i]⟩

/-- **The list has every node at its position.** -/
theorem mem_located_iff : (p, m) ∈ n.located ↔ n.at? p = some m := by
  induction p generalizing n with
  | nil =>
    have hbelow : ([], m) ∉ locatedFrom 0 n.children := by
      intro h
      obtain ⟨i, c, q, -, -, hx⟩ := mem_locatedFrom_iff.1 h
      cases hx
    rw [located_eq, List.mem_cons, or_iff_left hbelow, at?, Option.some.injEq, Prod.mk.injEq,
      and_iff_right rfl, eq_comm]
  | cons i p ih =>
    rw [located_eq, List.mem_cons, or_iff_right (by simp), mem_locatedFrom_iff, at?,
      Option.bind_eq_some_iff]
    constructor
    · rintro ⟨k, c, q, hc, hm, hx⟩
      simp only [Nat.zero_add, List.cons.injEq] at hx
      obtain ⟨rfl, rfl⟩ := hx
      exact ⟨c, hc, ih.1 hm⟩
    · rintro ⟨c, hc, hm⟩
      exact ⟨i, c, p, hc, ih.2 hm, by rw [Nat.zero_add]⟩

/-! ## The order of the list -/

theorem map_snd_locatedFrom (h : ∀ c ∈ ns, c.located.map Prod.snd = c :: c.descendants) :
    (locatedFrom next ns).map Prod.snd = preorderFrom ns := by
  induction ns generalizing next with
  | nil => rw [locatedFrom, preorderFrom, List.map_nil]
  | cons m ns ih =>
    obtain ⟨hm, hns⟩ := List.forall_mem_cons.1 h
    rw [locatedFrom, List.map_append, List.map_map, ih hns, preorderFrom_cons, preorderFrom_append]
    exact congrArg (· ++ preorderFrom ns) hm

/-- Without the positions, the list is what a walk meets. -/
theorem map_snd_located (n : Node) : n.located.map Prod.snd = n :: n.descendants := by
  induction n using childrenInduction with
  | step n ih =>
    rw [located_eq, List.map_cons, map_snd_locatedFrom ih]
    rfl

theorem locatedFrom_pairwise (h : ∀ c ∈ ns, c.located.Pairwise fun x y => x.1 < y.1) :
    (locatedFrom next ns).Pairwise fun x y => x.1 < y.1 := by
  induction ns generalizing next with
  | nil => exact List.Pairwise.nil
  | cons m ns ih =>
    obtain ⟨hm, hns⟩ := List.forall_mem_cons.1 h
    rw [locatedFrom, List.pairwise_append, List.pairwise_map]
    refine ⟨hm.imp fun hlt => List.cons_lt_cons_iff.2 (Or.inr ⟨rfl, hlt⟩), ih hns, ?_⟩
    -- the positions of a sibling begin with a greater number than those before it
    intro x hx y hy
    obtain ⟨x', -, rfl⟩ := List.mem_map.1 hx
    obtain ⟨i, c, q, -, -, hq⟩ := mem_locatedFrom_iff.1 hy
    rw [hq]
    exact List.cons_lt_cons_iff.2 (Or.inl (by omega))

/-- **The positions of the list are in order.** -/
theorem located_pairwise (n : Node) : n.located.Pairwise fun x y => x.1 < y.1 := by
  induction n using childrenInduction with
  | step n ih =>
    rw [located_eq, List.pairwise_cons]
    refine ⟨?_, locatedFrom_pairwise ih⟩
    intro x hx
    obtain ⟨i, c, q, -, -, hq⟩ := mem_locatedFrom_iff.1 hx
    rw [hq]
    exact List.nil_lt_cons _ _

/-! ## Places -/

/-- **The positions below a node at which accepted nodes stand**, in document
order. -/
def places (n : Node) (f : TagFilter) : List (List ℕ) :=
  ((locatedFrom 0 n.children).filter fun x => f.acceptsNode x.2).map Prod.fst

variable {f : TagFilter}

theorem mem_locatedFrom_children_iff :
    (p, m) ∈ locatedFrom 0 n.children ↔ p ≠ [] ∧ n.at? p = some m := by
  rw [← mem_located_iff, located_eq, List.mem_cons, Prod.mk.injEq]
  constructor
  · intro h
    obtain ⟨i, c, q, -, -, rfl : p = _⟩ := mem_locatedFrom_iff.1 h
    exact ⟨List.cons_ne_nil _ _, Or.inr h⟩
  · rintro ⟨hp, h | h⟩
    · exact absurd h.1 hp
    · exact h

/-- A place is a position below the node, and the node there is accepted. -/
theorem mem_places_iff :
    p ∈ n.places f ↔ p ≠ [] ∧ ∃ m, n.at? p = some m ∧ f.acceptsNode m := by
  rw [places, List.mem_map]
  constructor
  · rintro ⟨⟨p, m⟩, hx, rfl⟩
    obtain ⟨hx, hm⟩ := List.mem_filter.1 hx
    obtain ⟨hp, hat⟩ := mem_locatedFrom_children_iff.1 hx
    exact ⟨hp, m, hat, hm⟩
  · rintro ⟨hp, m, hat, hm⟩
    exact ⟨(p, m), List.mem_filter.2 ⟨mem_locatedFrom_children_iff.2 ⟨hp, hat⟩, hm⟩, rfl⟩

theorem places_pairwise (n : Node) (f : TagFilter) : (n.places f).Pairwise (· < ·) := by
  have h := n.located_pairwise
  rw [located_eq, List.pairwise_cons] at h
  exact List.pairwise_map.2 (h.2.filter _)

theorem descendants_eq (n : Node) : n.descendants = (locatedFrom 0 n.children).map Prod.snd := by
  have h := map_snd_located n
  rw [located_eq, List.map_cons] at h
  exact (List.cons.inj h).2.symm

/-- **A search finds the nodes at its places.** -/
theorem findAll_eq_places (n : Node) (f : TagFilter) :
    n.findAll f none = (n.places f).filterMap n.at? := by
  have hat : ∀ x ∈ (locatedFrom 0 n.children).filter fun x => f.acceptsNode x.2,
      n.at? x.1 = some x.2 :=
    fun x hx => (mem_locatedFrom_children_iff.1 (List.mem_filter.1 hx).1).2
  rw [findAll_none, descendants_eq, List.filter_map, places, List.filterMap_map]
  exact (List.filterMap_eq_map_iff_forall_eq_some.2 hat).symm

end Node

end DesignAtlas
