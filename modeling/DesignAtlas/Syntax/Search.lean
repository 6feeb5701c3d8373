import DesignAtlas.Syntax.Node

/-!
# Searching by tag

A tag filter is a set of accepted tags. A search meets the nodes below a node, each
before the nodes below it; the node itself is not tested, and a match does not keep
the search from going below it. A search may be limited to a number of matches: it
then stops at the last of them, and tests no node after it.

`Node.scan` is the record of a search, every node that was tested with its verdict.
The results of a search are the accepted nodes of its record.

A search can also be made on demand. `Search` is a search under way: it is asked for one
match after the other, and what it has not been asked for it has not looked for.
-/

namespace DesignAtlas

/-- A set of accepted tags; the tag of a leaf is `none`. -/
structure TagFilter where
  tags : List (Option String)
  deriving Repr, Inhabited

namespace TagFilter

/-- The filter of some tags. -/
def ofTags (tags : List String) : TagFilter := ⟨tags.map some⟩

/-- Whether a tag is accepted. -/
def accepts (f : TagFilter) (tag : Option String) : Bool := f.tags.contains tag

/-- Whether a node has an accepted tag. -/
def acceptsNode (f : TagFilter) (n : Node) : Bool := f.accepts n.tag?

/-- Whether two filters accept the same tags. -/
def sameAs (f g : TagFilter) : Bool := f.tags.all g.accepts && g.tags.all f.accepts

/-- The order of tags, the tag of a leaf first. -/
def tagLE : Option String → Option String → Bool
  | none, _ => true
  | some _, none => false
  | some a, some b => a ≤ b

/-- The accepted tags in order, each once. -/
def sorted (f : TagFilter) : List (Option String) :=
  f.tags.eraseDups.mergeSort tagLE

/-- The accepted tags in order, without that of a leaf. -/
def sortedTags (f : TagFilter) : List String := f.sorted.filterMap id

/-- A short description of a filter. -/
def describe (f : TagFilter) : String :=
  let shown := f.sorted.map fun tag => (tag.map Text.quoted).getD "None"
  "TagFilter([" ++ String.intercalate ", " shown ++ "])"

end TagFilter

namespace Node

/-- The nodes that a search tests, from a list of nodes still to visit, each with
whether it was accepted. `limit` is how many more matches are wanted. -/
def scanFrom (f : TagFilter) (limit : Option Nat) : List Node → List (Node × Bool)
  | [] => []
  | n :: pending =>
    if limit = some 0 then []
    else
      let hit := f.acceptsNode n
      (n, hit) :: scanFrom f (if hit then limit.map (· - 1) else limit) (n.children ++ pending)
termination_by pending => sizeAll pending
decreasing_by simp only [sizeAll_append, sizeAll, size_eq n]; omega

/-- The nodes below a node that a search tests, each with whether it was accepted. -/
def scan (n : Node) (f : TagFilter) (limit : Option Nat) : List (Node × Bool) :=
  scanFrom f limit n.children

/-- The nodes below a node with an accepted tag, at most `limit` of them. -/
def findAll (n : Node) (f : TagFilter) (limit : Option Nat) : List Node :=
  ((n.scan f limit).filter Prod.snd).map Prod.fst

/-- The first node below a node with an accepted tag. -/
def find? (n : Node) (f : TagFilter) : Option Node :=
  (n.findAll f (some 1)).head?

end Node

/-! ## Searches on demand -/

/-- A search under way: how many more matches it hands out at most, and the nodes still
to visit. -/
structure Search where
  filter : TagFilter
  limit : Option Nat
  pending : List Node
  deriving Inhabited

namespace Search

/-- What asking for the next match comes to: the match if there is one, the nodes tested
for it in order, and the search that is left. -/
structure Reply where
  found? : Option Node
  tested : List Node
  rest : Search

/-- Tests nodes, from a list of nodes still to visit, up to the first that is accepted. -/
def seek (f : TagFilter) (limit : Option Nat) : List Node → Reply
  | [] => ⟨none, [], ⟨f, limit, []⟩⟩
  | n :: pending =>
    if f.acceptsNode n then ⟨some n, [n], ⟨f, limit.map (· - 1), n.children ++ pending⟩⟩
    else
      let reply := seek f limit (n.children ++ pending)
      { reply with tested := n :: reply.tested }
termination_by pending => Node.sizeAll pending
decreasing_by simp only [Node.sizeAll_append, Node.sizeAll, Node.size_eq n]; omega

/-- **Asks for the next match.** A search that has handed out all it may tests no node. -/
def next (s : Search) : Reply :=
  if s.limit = some 0 then ⟨none, [], s⟩ else seek s.filter s.limit s.pending

/-- The replies to a number of requests, one after the other. -/
def replies : Nat → Search → List Reply
  | 0, _ => []
  | t + 1, s =>
    let reply := s.next
    reply :: replies t reply.rest

/-- A match leaves fewer nodes to visit. -/
theorem sizeAll_seek_lt (f : TagFilter) (limit : Option Nat) (ns : List Node)
    (h : (seek f limit ns).found? ≠ none) :
    Node.sizeAll (seek f limit ns).rest.pending < Node.sizeAll ns := by
  fun_induction seek f limit ns with
  | case1 => exact absurd rfl h
  | case2 n pending hit =>
    simp only [Node.sizeAll_append, Node.sizeAll, Node.size_eq n]
    omega
  | case3 n pending miss reply ih =>
    have hlt : Node.sizeAll reply.rest.pending < Node.sizeAll (n.children ++ pending) := ih h
    rw [Node.sizeAll_append] at hlt
    simp only [Node.sizeAll, Node.size_eq n]
    omega

theorem sizeAll_lt_of_next {s rest : Search} {n : Node} {tested : List Node}
    (h : s.next = ⟨some n, tested, rest⟩) :
    Node.sizeAll rest.pending < Node.sizeAll s.pending := by
  unfold next at h
  split at h
  · cases h
  · have hlt := sizeAll_seek_lt s.filter s.limit s.pending (by rw [h]; exact Option.some_ne_none n)
    rwa [h] at hlt

/-- All matches, asked for until there are no more. -/
def all (s : Search) : List Node :=
  match h : s.next with
  | ⟨none, _, _⟩ => []
  | ⟨some n, _, rest⟩ =>
    have := sizeAll_lt_of_next h
    n :: all rest
termination_by Node.sizeAll s.pending

end Search

/-- A search for the nodes below a node with an accepted tag, of which it hands out at
most `maxCount`. A number below zero counts as none. -/
def Node.search (n : Node) (f : TagFilter) (maxCount : Option Int) : Search :=
  ⟨f, maxCount.map Int.toNat, n.children⟩

end DesignAtlas
