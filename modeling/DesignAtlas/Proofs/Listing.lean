import DesignAtlas.Proofs.Position
import DesignAtlas.Proofs.Span

/-!
# The nodes of a tree by recursion

`Node.listing` lists a node and all below it by recursion on the tree: the
node first, then the listings of its children one after the other. A walk
keeps a list of nodes still to visit instead, and lists the same
(`preorder_eq_listing`): what it meets from a list is the listings of its
nodes in turn.

The listing has the nodes at all positions of the tree, each position once
(`filterMap_positions`, `nodup_positions`).
-/

namespace DesignAtlas

namespace Node

mutual

/-- **A node and all nodes below it**, parents before their children. -/
def listing : Node → List Node
  | token t => [token t]
  | leaf => [leaf]
  | branch tag cs => branch tag cs :: listingAll cs

/-- The listings of some nodes, one after the other. -/
def listingAll : List Node → List Node
  | [] => []
  | n :: ns => listing n ++ listingAll ns

end

variable {n m : Node} {ms : List Node}

theorem listing_eq (n : Node) : n.listing = n :: listingAll n.children := by
  cases n <;> rfl

theorem listingAll_append (ns ms : List Node) :
    listingAll (ns ++ ms) = listingAll ns ++ listingAll ms := by
  induction ns with
  | nil => rfl
  | cons n ns ih => rw [List.cons_append, listingAll, ih, listingAll, List.append_assoc]

/-- **A walk meets the listings of the nodes it has still to visit.** The
children of the node in front are put before the others, so their listings
come before those of the others. -/
theorem preorderFrom_eq_listingAll (ns : List Node) : preorderFrom ns = listingAll ns := by
  fun_induction preorderFrom ns with
  | case1 => rfl
  | case2 n pending ih => rw [ih, listingAll_append, listingAll, listing_eq, List.cons_append]

theorem preorder_eq_listing (n : Node) : n.preorder = n.listing := by
  rw [preorder, preorderFrom_eq_listingAll, listingAll, listingAll, List.append_nil]

theorem descendants_eq_tail (n : Node) : n.descendants = n.listing.tail := by
  rw [← preorder_eq_listing, preorder_eq, List.tail_cons]

/-! ## Positions -/

/-- **The positions of the nodes of a tree**, in document order. -/
def positions (n : Node) : List (List ℕ) := n.located.map Prod.fst

theorem nodup_positions (n : Node) : n.positions.Nodup :=
  List.pairwise_map.2 (n.located_pairwise.imp fun hlt => ne_of_lt hlt)

theorem mem_positions_iff {p : List ℕ} : p ∈ n.positions ↔ (n.at? p).isSome := by
  rw [positions, List.mem_map, Option.isSome_iff_exists]
  constructor
  · rintro ⟨⟨p, m⟩, hx, rfl⟩
    exact ⟨m, mem_located_iff.1 hx⟩
  · rintro ⟨m, hm⟩
    exact ⟨(p, m), mem_located_iff.2 hm, rfl⟩

/-- The nodes at some of the positions, in whatever order these are taken. -/
theorem filterMap_at?_map_fst {xs : List (List ℕ × Node)} (h : xs ⊆ n.located) :
    (xs.map Prod.fst).filterMap n.at? = xs.map Prod.snd := by
  have hat : ∀ x ∈ xs, (n.at? ∘ Prod.fst) x = some x.2 := fun x hx => mem_located_iff.1 (h hx)
  rw [List.filterMap_map, List.filterMap_eq_map_iff_forall_eq_some.2 hat]

/-- **The listing has the node at each position, once for each.** -/
theorem filterMap_positions (n : Node) : n.positions.filterMap n.at? = n.listing := by
  rw [positions, filterMap_at?_map_fst (List.Subset.refl _), map_snd_located,
    ← preorder_eq_listing, preorder_eq]

/-- What a walk meets first below a node stands at the first positions below
it. -/
theorem exists_positions_of_prefix (h : ms <+: n.descendants) :
    ∃ ps, ps <+: n.positions.tail ∧ ps.Nodup ∧ ps.filterMap n.at? = ms ∧
      ps.length = ms.length := by
  have htail : n.located = ([], n) :: locatedFrom 0 n.children := located_eq n
  have hbelow : n.positions.tail = (locatedFrom 0 n.children).map Prod.fst := by
    rw [positions, htail, List.map_cons, List.tail_cons]
  have hsub : (locatedFrom 0 n.children).take ms.length ⊆ n.located := by
    rw [htail]
    exact fun x hx => List.mem_cons_of_mem _ (List.mem_of_mem_take hx)
  -- equal nodes may stand at several places, so the nodes are taken with their positions
  have hms : ((locatedFrom 0 n.children).take ms.length).map Prod.snd = ms := by
    rw [List.map_take, ← descendants_eq, ← List.prefix_iff_eq_take.1 h]
  refine ⟨((locatedFrom 0 n.children).take ms.length).map Prod.fst, ?_, ?_, ?_, ?_⟩
  · rw [hbelow]
    exact (List.take_prefix _ _).map _
  · have hnodup : n.positions.tail.Nodup := (nodup_positions n).sublist (List.tail_sublist _)
    rw [hbelow] at hnodup
    exact hnodup.sublist ((List.take_sublist _ _).map _)
  · rw [filterMap_at?_map_fst hsub, hms]
  · rw [List.length_map, ← List.length_map (f := Prod.snd), hms]

end Node

end DesignAtlas
