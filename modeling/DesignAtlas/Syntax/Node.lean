import DesignAtlas.Syntax.Source
import DesignAtlas.Text.Quoted

/-!
# Syntax trees

A tree of tagged nodes over a source text. A *branch* is a grammar production with
its children, a *token* covers bytes of the source and may carry its own text, and a
*leaf* stands where the grammar has a place that nothing fills.

Trees can be very deep, so they are walked with an explicit list of nodes still to
visit. `Node.preorder` lists a node and all below it, parents before their children;
`Node.tokens` lists the tokens below a node, forwards or backwards. The span of a
branch runs from its first token to its last.
-/

namespace DesignAtlas

/-- A token: its kind, the bytes `start` to `stop` that it covers, and its own text if
it carries one. -/
structure Token where
  tag : String
  start : Int
  stop : Int
  text? : Option String
  /-- A token does not end before it starts. -/
  start_le_stop : start ≤ stop
  deriving DecidableEq

/-- A node of a syntax tree. -/
inductive Node where
  | token (t : Token)
  | leaf
  | branch (tag : String) (children : List Node)
  deriving Inhabited

/-- The order in which the tokens below a node are met. -/
inductive Direction where
  | forward
  | backward
  deriving DecidableEq, Repr

namespace Node

/-- The tag of a node; a leaf has none. -/
def tag? : Node → Option String
  | token t => some t.tag
  | leaf => none
  | branch tag _ => some tag

/-- The children of a node, in order. -/
def children : Node → List Node
  | branch _ cs => cs
  | _ => []

mutual

/-- The number of nodes of a tree. -/
def size : Node → Nat
  | token _ => 1
  | leaf => 1
  | branch _ cs => sizeAll cs + 1

/-- The number of nodes of several trees. -/
def sizeAll : List Node → Nat
  | [] => 0
  | n :: ns => size n + sizeAll ns

end

theorem sizeAll_append (ns ms : List Node) : sizeAll (ns ++ ms) = sizeAll ns + sizeAll ms := by
  induction ns with
  | nil => simp [sizeAll]
  | cons n ns ih => simp only [List.cons_append, sizeAll, ih]; omega

theorem sizeAll_reverse (ns : List Node) : sizeAll ns.reverse = sizeAll ns := by
  induction ns with
  | nil => rfl
  | cons n ns ih => simp only [List.reverse_cons, sizeAll_append, sizeAll, ih]; omega

theorem size_eq (n : Node) : n.size = sizeAll n.children + 1 := by
  cases n <;> simp [size, children, sizeAll]

/-! ## Walks -/

/-- The nodes met from a list of nodes still to visit, each followed by those below
it. -/
def preorderFrom : List Node → List Node
  | [] => []
  | n :: pending => n :: preorderFrom (n.children ++ pending)
termination_by pending => sizeAll pending
decreasing_by simp only [sizeAll_append, sizeAll, size_eq n]; omega

/-- A node and all nodes below it, parents before their children. -/
def preorder (n : Node) : List Node :=
  preorderFrom [n]

/-- The nodes met from a list of nodes still to visit, with their depths. -/
def outlineFrom : List (Nat × Node) → List (Nat × Node)
  | [] => []
  | (depth, n) :: pending =>
    (depth, n) :: outlineFrom (n.children.map (depth + 1, ·) ++ pending)
termination_by pending => sizeAll (pending.map Prod.snd)
decreasing_by
  simp only [List.map_append, List.map_map, List.map_cons, sizeAll_append, sizeAll, size_eq n]
  have h : List.map (Prod.snd ∘ fun c => (depth + 1, c)) n.children = n.children := by
    simp [Function.comp_def]
  rw [h]
  omega

/-- A node and all nodes below it with their depths, parents before their children. -/
def outline (n : Node) : List (Nat × Node) :=
  outlineFrom [(0, n)]

/-- Children in the order in which a walk in the given direction meets them. -/
def Direction.arrange (direction : Direction) (ns : List Node) : List Node :=
  match direction with
  | .forward => ns
  | .backward => ns.reverse

theorem sizeAll_arrange (direction : Direction) (ns : List Node) :
    sizeAll (Direction.arrange direction ns) = sizeAll ns := by
  cases direction <;> simp [Direction.arrange, sizeAll_reverse]

/-- The tokens met from a list of nodes still to visit. -/
def tokensFrom (direction : Direction) : List Node → List Token
  | [] => []
  | token t :: pending => t :: tokensFrom direction pending
  | leaf :: pending => tokensFrom direction pending
  | branch _ cs :: pending => tokensFrom direction (Direction.arrange direction cs ++ pending)
termination_by pending => sizeAll pending
decreasing_by
  all_goals simp only [sizeAll_append, sizeAll_arrange, sizeAll, size]; omega

/-- The tokens of a node, itself included, in the given direction. -/
def tokens (n : Node) (direction : Direction) : List Token :=
  tokensFrom direction [n]

/-- The first token met from a list of nodes still to visit. -/
def firstTokenFrom (direction : Direction) : List Node → Option Token
  | [] => none
  | token t :: _ => some t
  | leaf :: pending => firstTokenFrom direction pending
  | branch _ cs :: pending => firstTokenFrom direction (Direction.arrange direction cs ++ pending)
termination_by pending => sizeAll pending
decreasing_by
  all_goals simp only [sizeAll_append, sizeAll_arrange, sizeAll, size]; omega

/-! ## Spans and text -/

/-- Where the first token of a node starts. -/
def start? (n : Node) : Option Int :=
  (firstTokenFrom .forward [n]).map Token.start

/-- Where the last token of a node ends. -/
def stop? (n : Node) : Option Int :=
  (firstTokenFrom .backward [n]).map Token.stop

/-- The part of a source that a node covers; nothing for a node without tokens. -/
def covered (source : Source) (n : Node) : String :=
  match n.start?, n.stop? with
  | some start, some stop => source.slice start stop
  | _, _ => ""

/-- The text of a node: the text that a token carries, or else the part of the source
that the node covers. -/
def text (source : Source) : Node → String
  | token t => t.text?.getD (covered source (token t))
  | n => covered source n

/-- The text that a token carries. -/
def ownText? : Node → Option String
  | token t => t.text?
  | _ => none

/-- Whether the text of a node is cut out of the source: it carries none and covers
something. -/
def readsSource (n : Node) : Bool :=
  n.ownText?.isNone && n.start?.isSome && n.stop?.isSome

/-- A short description of a node. -/
def describe : Node → String
  | token t => s!"TokenNode({Text.quoted t.tag}, {t.start}, {t.stop})"
  | leaf => "LeafNode()"
  | branch tag cs => s!"BranchNode({Text.quoted tag}, children={cs.length})"

end Node

/-- A syntax tree of one file: the tag and children of its root, and the source that
its offsets point into. -/
structure Tree where
  tag : String
  children : List Node
  source : Source
  deriving Inhabited

namespace Tree

/-- The root as a node. -/
def root (t : Tree) : Node := .branch t.tag t.children

/-- The text of a node of the tree. -/
def textOf (t : Tree) (n : Node) : String := n.text t.source

/-- A short description of the root. -/
def describe (t : Tree) : String :=
  s!"RootNode({Text.quoted t.tag}, children={t.children.length})"

end Tree

end DesignAtlas
