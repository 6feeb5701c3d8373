import DesignAtlas.Proofs.Correspondence
import DesignAtlas.Proofs.Export

/-!
# Leaves make no difference

A tree that keeps its leaves holds the tree without them: `Node.pruned`
takes away all leaves below a node. A leaf has no tag, no tokens and nothing
below it. So a search for tags finds the same nodes in both trees, up to the
leaves below them, and the text of a node is the same with and without its
leaves. What is read out of a tree is therefore read out of the pruned one
as well.
-/

namespace DesignAtlas

namespace Node

/-! ## Without leaves -/

/-- Whether a node is a leaf. -/
def isLeaf : Node → Bool
  | leaf => true
  | _ => false

mutual

/-- A node without the leaves below it. -/
def pruned : Node → Node
  | token t => token t
  | leaf => leaf
  | branch tag cs => branch tag (prunedAll cs)

/-- Some nodes without the leaves among them and below them. -/
def prunedAll : List Node → List Node
  | [] => []
  | n :: ns => if n.isLeaf then prunedAll ns else n.pruned :: prunedAll ns

end

theorem prunedAll_leaf (ns : List Node) : prunedAll (leaf :: ns) = prunedAll ns := rfl

theorem prunedAll_token (t : Token) (ns : List Node) :
    prunedAll (token t :: ns) = token t :: prunedAll ns := rfl

theorem prunedAll_branch (tag : String) (cs ns : List Node) :
    prunedAll (branch tag cs :: ns) = branch tag (prunedAll cs) :: prunedAll ns := rfl

theorem prunedAll_eq (ns : List Node) :
    prunedAll ns = (ns.filter fun n => !n.isLeaf).map pruned := by
  induction ns with
  | nil => rfl
  | cons n ns ih =>
    cases n with
    | leaf => exact ih
    | token t => exact congrArg (token t :: ·) ih
    | branch tag cs => exact congrArg (branch tag (prunedAll cs) :: ·) ih

theorem prunedAll_append (ns ms : List Node) :
    prunedAll (ns ++ ms) = prunedAll ns ++ prunedAll ms := by
  simp only [prunedAll_eq, List.filter_append, List.map_append]

theorem prunedAll_arrange (direction : Direction) (ns : List Node) :
    Direction.arrange direction (prunedAll ns) = prunedAll (Direction.arrange direction ns) := by
  cases direction with
  | forward => rfl
  | backward => simp only [Direction.arrange, prunedAll_eq, List.filter_reverse, List.map_reverse]

@[simp]
theorem tag?_pruned (n : Node) : n.pruned.tag? = n.tag? := by
  cases n <;> rfl

@[simp]
theorem children_pruned (n : Node) : n.pruned.children = prunedAll n.children := by
  cases n <;> rfl

/-! ## Searches -/

/-- **A walk meets the same nodes, less the leaves.** -/
theorem preorderFrom_prunedAll (ns : List Node) :
    preorderFrom (prunedAll ns) = prunedAll (preorderFrom ns) := by
  fun_induction preorderFrom ns with
  | case1 => rw [prunedAll, preorderFrom]
  | case2 n pending ih =>
    rw [prunedAll_append] at ih
    cases n with
    | leaf => rw [prunedAll_leaf, prunedAll_leaf, ← ih]; rfl
    | token t => rw [prunedAll_token, prunedAll_token, ← ih, preorderFrom_cons]; rfl
    | branch tag cs => rw [prunedAll_branch, prunedAll_branch, ← ih, preorderFrom_cons]; rfl

variable {f : TagFilter}

theorem acceptsNode_pruned (n : Node) : f.acceptsNode n.pruned = f.acceptsNode n := by
  rw [TagFilter.acceptsNode, TagFilter.acceptsNode, tag?_pruned]

/-- Where the tag of leaves is not looked for, leaves match nothing. -/
theorem filter_acceptsNode_prunedAll (hf : none ∉ f.tags) (ns : List Node) :
    (prunedAll ns).filter f.acceptsNode = (ns.filter f.acceptsNode).map pruned := by
  have hleaf : ∀ n : Node, (f.acceptsNode n && !n.isLeaf) = f.acceptsNode n := by
    intro n
    cases n with
    | leaf =>
      have hreject : f.acceptsNode leaf = false := by
        simpa [TagFilter.acceptsNode, TagFilter.accepts, tag?] using hf
      rw [hreject, Bool.false_and]
    | _ => exact Bool.and_true _
  rw [prunedAll_eq, List.filter_map, List.filter_filter]
  simp only [Function.comp_def, acceptsNode_pruned, hleaf]

theorem filter_descendants_pruned (hf : none ∉ f.tags) (n : Node) :
    n.pruned.descendants.filter f.acceptsNode =
      (n.descendants.filter f.acceptsNode).map pruned := by
  rw [descendants, children_pruned, preorderFrom_prunedAll, filter_acceptsNode_prunedAll hf]
  rfl

theorem findAll_pruned (hf : none ∉ f.tags) (n : Node) :
    n.pruned.findAll f none = (n.findAll f none).map pruned := by
  rw [findAll_none, findAll_none, filter_descendants_pruned hf]

/-! ## Text -/

theorem firstTokenFrom_prunedAll (direction : Direction) (ns : List Node) :
    firstTokenFrom direction (prunedAll ns) = firstTokenFrom direction ns := by
  fun_induction firstTokenFrom direction ns with
  | case1 => rw [prunedAll, firstTokenFrom]
  | case2 t pending => rw [prunedAll_token, firstTokenFrom]
  | case3 pending ih => rw [prunedAll_leaf, ih]
  | case4 tag cs pending ih =>
    rw [prunedAll_branch, firstTokenFrom, prunedAll_arrange, ← prunedAll_append, ih]

/-- **The text of a node does not depend on its leaves.** -/
theorem text_pruned (source : Source) (n : Node) : n.pruned.text source = n.text source := by
  cases n with
  | token t => rfl
  | leaf => rfl
  | branch tag cs =>
    have hfirst : ∀ direction, firstTokenFrom direction [(branch tag cs).pruned] =
        firstTokenFrom direction [branch tag cs] :=
      fun direction => firstTokenFrom_prunedAll direction [branch tag cs]
    have hspan : covered source (branch tag cs).pruned = covered source (branch tag cs) := by
      simp only [covered, start?, stop?, hfirst]
    exact hspan

end Node

/-- A tree without its leaves. -/
def Tree.pruned (t : Tree) : Tree := { t with children := Node.prunedAll t.children }

/-! ## Extraction -/

namespace Vocabulary

variable {v : Vocabulary}

/-- **A vocabulary of tags**: none of its filters looks for leaves, which
have no tag. -/
def OnlyTags (v : Vocabulary) : Prop := ∀ x ∈ v.filters, none ∉ x.2.tags

instance (v : Vocabulary) : Decidable v.OnlyTags :=
  inferInstanceAs (Decidable (∀ x ∈ v.filters, none ∉ x.2.tags))

/-- **A node and the node without its leaves are read alike.** -/
theorem readAlike_pruned (hv : v.OnlyTags) (source : Source) :
    ReadAlike v v source source fun n m => m = n.pruned := by
  refine ⟨?_, List.forall₂_same.2 ?_⟩
  · rintro n m rfl
    exact (Node.text_pruned source n).symm
  · rintro x hx n m rfl
    rw [Node.findAll_pruned (hv x hx)]
    exact List.forall₂_map_right_iff.2 (List.forall₂_same.2 fun _ _ => rfl)

theorem extract_pruned (hv : v.OnlyTags) (path : String) (t : Tree) :
    v.extract path (some t.pruned) = v.extract path (some t) := by
  have halike : ReadAlike v v t.source t.pruned.source fun n m => m = n.pruned :=
    readAlike_pruned hv t.source
  exact (halike.extract_eq path rfl).symm

end Vocabulary

/-! ## Exported trees -/

namespace Json

theorem prunedAll_flatMap {α : Type} (items : List α) (g : α → List Node) :
    Node.prunedAll (items.flatMap g) = items.flatMap fun c => Node.prunedAll (g c) := by
  induction items with
  | nil => rfl
  | cons c items ih => rw [List.flatMap_cons, Node.prunedAll_append, ih, List.flatMap_cons]

/-- **To drop null children is to keep them as leaves and prune.** -/
theorem mirror_drop (j : Json) : j.mirror .drop = Node.prunedAll (j.mirror .keep) := by
  by_cases hnull : j.isNull
  · rw [mirror, mirror, if_pos hnull, if_pos hnull]
    rfl
  · rcases hchildren : j.field? "children" with - | under
    · have hmirror : ∀ nulls, j.mirror nulls =
          if h : j.numberAt "start" ≤ j.numberAt "end" then [.token (j.mirrorToken h)] else [] := by
        intro nulls
        rw [mirror, if_neg hnull, hchildren, Option.isSome_none, if_neg Bool.false_ne_true]
      rw [hmirror, hmirror]
      split <;> rfl
    · have hlisted : ∀ c ∈ j.listed, c.mirror .drop = Node.prunedAll (c.mirror .keep) := by
        intro c hc
        have hsize := sizeOf_lt_of_mem_listed hc
        exact mirror_drop c
      have hflat : j.listed.flatMap (mirror .drop) =
          Node.prunedAll (j.listed.flatMap (mirror .keep)) := by
        rw [prunedAll_flatMap, List.flatMap_def, List.map_congr_left hlisted, ← List.flatMap_def]
      rw [mirror_of_children hchildren, mirror_of_children hchildren, hflat]
      rfl
termination_by sizeOf j

theorem mirrorTree_drop (source : Source) (j : Json) :
    j.mirrorTree .drop source = (j.mirrorTree .keep source).pruned := by
  have hmirror : mirror .drop = fun c => Node.prunedAll (mirror .keep c) := funext mirror_drop
  rw [mirrorTree, mirrorTree, Tree.pruned, prunedAll_flatMap, ← hmirror]

end Json

/-- An exported tree is built, and is its mirror image. -/
theorem Tree.ofExport_of_isExport {j : Json} (hj : j.IsExport) (nulls : NullPolicy)
    (source : Source) : Tree.ofExport nulls source j = .ok (j.mirrorTree nulls source) := by
  obtain ⟨⟨tag, htag⟩, items, hlists, hall⟩ := Json.isExport_iff.1 hj
  rw [Tree.ofExport_of_root nulls source htag hlists,
    (nodesBelow_eq_ok_iff nulls [] 0 items _).2 ⟨hall, rfl⟩, Json.mirrorTree,
    Json.tagText_eq htag, Json.listed_of_field hlists]
  rfl

/-- **What is read out of a tree does not depend on its null children.** An
exported tree can be built with its null children dropped or kept, the first
tree is the second without its leaves, and a vocabulary of tags finds the
same modules in both, and notes the same events. -/
theorem Vocabulary.extract_drop_eq_keep {v : Vocabulary} (hv : v.OnlyTags) {j : Json}
    (hj : j.IsExport) (source : Source) (path : String) :
    ∃ dropped kept, Tree.ofExport .drop source j = .ok dropped ∧
      Tree.ofExport .keep source j = .ok kept ∧ dropped = kept.pruned ∧
      v.extract path (some dropped) = v.extract path (some kept) := by
  have hpruned := Json.mirrorTree_drop source j
  refine ⟨_, _, Tree.ofExport_of_isExport hj .drop source, Tree.ofExport_of_isExport hj .keep source,
    hpruned, ?_⟩
  rw [hpruned, extract_pruned hv]

/-- A declaration with null children at every level. -/
def Json.sparseDeclaration : Json :=
  .obj [("tag", .str "root"), ("children", .arr [
    .null,
    .obj [("tag", .str "kModuleDeclaration"), ("children", .arr [
      .null,
      .obj [("tag", .str "kModuleHeader"), ("children", .arr [
        .null,
        .obj [("tag", .str "SymbolIdentifier"), ("start", .int 7), ("end", .int 8)]])]])]])]

theorem Json.isExport_sparseDeclaration : sparseDeclaration.IsExport := by
  have hpair : ∀ c : Json, c.IsNode → ∀ item ∈ [Json.null, c], item.IsNode := by
    intro c hc
    rw [List.forall_mem_cons, List.forall_mem_singleton]
    exact ⟨.null, hc⟩
  refine ⟨⟨_, rfl⟩, Or.inr ⟨_, _, rfl, .arr _, hpair _ ?_⟩⟩
  refine .branch ⟨_, rfl⟩ rfl (.arr _) (hpair _ ?_)
  refine .branch ⟨_, rfl⟩ rfl (.arr _) (hpair _ ?_)
  exact .token ⟨⟨_, rfl⟩, rfl, ⟨7, 8, rfl, rfl, by decide, by decide⟩, Or.inl rfl⟩

theorem Vocabulary.sparse_declaration_extract_eq :
    verible.OnlyTags ∧ Json.sparseDeclaration.IsExport ∧
      ∃ dropped kept, Tree.ofExport .drop (.text "module m;") Json.sparseDeclaration = .ok dropped ∧
        Tree.ofExport .keep (.text "module m;") Json.sparseDeclaration = .ok kept ∧
        dropped = kept.pruned ∧
        verible.extract "m.sv" (some dropped) = verible.extract "m.sv" (some kept) :=
  ⟨by decide, Json.isExport_sparseDeclaration,
    extract_drop_eq_keep (by decide) Json.isExport_sparseDeclaration _ _⟩

end DesignAtlas
