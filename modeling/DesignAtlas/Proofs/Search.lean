import DesignAtlas.Syntax.Search

/-!
# Searches and the document order

A walk keeps a list of nodes still to visit. What it meets from a list is
what it meets from each of its nodes in turn (`preorderFrom_append`), so the
nodes below a branch come child by child.

A search meets the nodes below a node in this order: its matches are the
accepted ones among them, and a limit cuts this list (`findAll_none`,
`findAll_some`).
-/

namespace DesignAtlas

namespace Node

/-! ## From the children to the node -/

theorem size_lt_of_mem_children {n c : Node} (h : c ∈ n.children) : c.size < n.size := by
  have hle : ∀ ns : List Node, c ∈ ns → c.size ≤ sizeAll ns := by
    intro ns
    induction ns with
    | nil => exact fun h => absurd h List.not_mem_nil
    | cons m ns ih =>
      intro hc
      rw [sizeAll]
      rcases List.mem_cons.1 hc with rfl | hc
      · omega
      · have := ih hc
        omega
  have := hle n.children h
  rw [size_eq n]
  omega

/-- **What holds of a node whenever it holds of its children, holds of all
nodes.** -/
@[elab_as_elim]
theorem childrenInduction {motive : Node → Prop}
    (step : ∀ n : Node, (∀ c ∈ n.children, motive c) → motive n) (n : Node) : motive n :=
  step n fun c hc =>
    have := size_lt_of_mem_children hc
    childrenInduction step c
termination_by n.size

/-! ## What a walk meets -/

theorem preorderFrom_cons (n : Node) (pending : List Node) :
    preorderFrom (n :: pending) = n :: preorderFrom (n.children ++ pending) := by
  rw [preorderFrom]

theorem preorderFrom_append (ns ms : List Node) :
    preorderFrom (ns ++ ms) = preorderFrom ns ++ preorderFrom ms := by
  fun_induction preorderFrom ns with
  | case1 => rfl
  | case2 n pending ih =>
    rw [List.cons_append, preorderFrom_cons, ← List.append_assoc, ih, List.cons_append]

/-- The nodes below a node, parents before their children. -/
def descendants (n : Node) : List Node := preorderFrom n.children

/-! ## What a search finds -/

variable (f : TagFilter)

theorem scanFrom_none (ns : List Node) :
    scanFrom f none ns = (preorderFrom ns).map fun n => (n, f.acceptsNode n) := by
  fun_induction preorderFrom ns with
  | case1 => rw [scanFrom, List.map_nil]
  | case2 n pending ih =>
    rw [scanFrom, if_neg (Option.some_ne_none 0).symm, List.map_cons]
    simp only [Option.map_none, ite_self, ih]

/-- **A limit cuts the list of matches.** -/
theorem scanFrom_some (k : Nat) (ns : List Node) :
    ((scanFrom f (some k) ns).filter Prod.snd).map Prod.fst =
      ((preorderFrom ns).filter f.acceptsNode).take k := by
  fun_induction preorderFrom ns generalizing k with
  | case1 => rw [scanFrom, List.filter_nil, List.filter_nil, List.take_nil, List.map_nil]
  | case2 n pending ih =>
    cases k with
    | zero => rw [scanFrom, if_pos rfl]; rfl
    | succ k =>
      rw [scanFrom, if_neg (by simp)]
      by_cases hit : f.acceptsNode n
      · simp only [hit, if_true, Option.map_some, Nat.add_sub_cancel, List.filter_cons_of_pos,
          List.map_cons, List.take_succ_cons, ih]
      · simp only [hit, Bool.false_eq_true, if_false, not_false_eq_true, List.filter_cons_of_neg,
          ih]

theorem findAll_none (n : Node) : n.findAll f none = n.descendants.filter f.acceptsNode := by
  rw [findAll, scan, scanFrom_none, List.filter_map, List.map_map]
  exact List.map_id _

theorem findAll_some (n : Node) (k : Nat) :
    n.findAll f (some k) = (n.descendants.filter f.acceptsNode).take k :=
  scanFrom_some f k n.children

/-- The first match is the first accepted node below. -/
theorem find?_eq (n : Node) : n.find? f = n.descendants.find? f.acceptsNode := by
  rw [find?, findAll_some, List.head?_take, if_neg Nat.one_ne_zero, List.head?_filter]

end Node

end DesignAtlas
