import DesignAtlas.Syntax.Export

/-!
# Nodes with shared parents

Nodes made one by one, each over nodes that exist already. A node may be put under
several branches and under the same one more than once; its parent is the branch or
root that took it last. A node *lives* while it has a name or a living node has it as
a child. Parents are not kept alive by their children: a parent that no longer lives
counts as none.

Nodes are numbered in the order in which they are made, so children have smaller
numbers than their parents.
-/

namespace DesignAtlas

namespace Graph

/-- What a node is besides its tree: a root carries the contents that its tree is bound
to, or nothing. -/
inductive Role where
  | inner
  | root (bound : Option Contents)
  deriving DecidableEq, Repr

/-- A node that was made: its number, its tree, its children and its last parent. -/
structure Cell where
  number : Nat
  tree : Node
  role : Role
  children : List Nat
  parent : Option Nat

/-- A short description of a node. -/
def Cell.describe (c : Cell) : String :=
  match c.role, c.tree with
  | .root _, .branch tag children => (Tree.mk tag children .absent).describe
  | _, tree => tree.describe

end Graph

/-- Nodes that were made, the newest first, and the names that some of them have. -/
structure Graph where
  cells : List Graph.Cell
  names : List (String × Nat)
  deriving Inhabited

namespace Graph

/-- No nodes. -/
def empty : Graph := ⟨[], []⟩

/-- The node with a number. -/
def cell? (g : Graph) (number : Nat) : Option Cell :=
  g.cells.find? fun c => c.number == number

/-- The node with a name. -/
def named? (g : Graph) (name : String) : Option Cell :=
  (g.names.lookup name).bind g.cell?

/-- The name of a node, if it has one. -/
def nameOf? (g : Graph) (number : Nat) : Option String :=
  (g.names.find? fun (_, n) => n == number).map Prod.fst

/-- Makes a node over existing children and names it. The children take it as their
parent, and the name is taken from the node that had it. -/
def add (g : Graph) (name : String) (tree : Node) (role : Role) (children : List Nat) : Graph :=
  let number := g.cells.length
  let adopted := g.cells.map fun c =>
    if children.contains c.number then { c with parent := some number } else c
  ⟨⟨number, tree, role, children, none⟩ :: adopted, upsert name number g.names⟩

/-- Makes a token. -/
def addToken (g : Graph) (name : String) (t : Token) : Graph :=
  g.add name (.token t) .inner []

/-- Makes a leaf. -/
def addLeaf (g : Graph) (name : String) : Graph :=
  g.add name .leaf .inner []

/-- Makes a branch or root over the nodes with the given names. -/
def addBranch (g : Graph) (name tag : String) (role : Role) (children : List String) : Graph :=
  let cells := children.filterMap g.named?
  g.add name (.branch tag (cells.map Cell.tree)) role (cells.map Cell.number)

/-- Forgets names. -/
def forget (g : Graph) (names : List String) : Graph :=
  { g with names := g.names.filter fun (name, _) => !names.contains name }

/-- The numbers of the living nodes among the given ones, newest first, when `held` are
the numbers of nodes that have a name or a living parent. -/
def livingFrom (held : List Nat) : List Cell → List Nat
  | [] => []
  | c :: older =>
    if held.contains c.number then c.number :: livingFrom (c.children ++ held) older
    else livingFrom held older

/-- The numbers of the living nodes, newest first. -/
def living (g : Graph) : List Nat :=
  livingFrom (g.names.map Prod.snd) g.cells

/-- The parent of a node, if it still lives. -/
def parent? (g : Graph) (number : Nat) : Option Nat :=
  (g.cell? number).bind fun c => c.parent.filter g.living.contains

/-- The contents that the first root at or above a node is bound to. Parents are newer
than their children, so as many steps as there are nodes suffice. -/
def boundFrom (g : Graph) : Nat → Nat → Option Contents
  | 0, _ => none
  | steps + 1, number =>
    (g.cell? number).bind fun c =>
      match c.role with
      | .root bound => bound
      | .inner => (g.parent? number).bind (g.boundFrom steps)

/-- The contents that a node is bound to. -/
def bound? (g : Graph) (number : Nat) : Option Contents :=
  g.boundFrom g.cells.length number

/-- The text of a node. All of the contents that it is cut out of are encoded first, and
that fails where they hold halves of surrogate pairs. -/
def text (g : Graph) (c : Cell) : Except CodePoints.Unencodable String :=
  if c.tree.readsSource then
    ((g.bound? c.number).getD .absent).source.map fun source => c.tree.text source
  else .ok (c.tree.text .absent)

end Graph

end DesignAtlas
