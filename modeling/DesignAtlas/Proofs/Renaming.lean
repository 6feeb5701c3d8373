import DesignAtlas.Proofs.Leaves
import DesignAtlas.Proofs.Span
import Mathlib.Data.Set.Function

/-!
# Tags are names only

Parsers name the productions of the grammar in their own ways, and the
vocabulary follows them. Here the tags of a tree are renamed, and those of
the vocabulary with them. As long as no two tags of the tree and the
vocabulary become one, every search finds the nodes it found before, under
their new tags. Texts have no tags in them, so the same modules are read.

A tree is renamed as it is exported: `Json.renamed` changes the tags of the
nodes of an exported value and nothing else, and the tree that is built from
it is the renamed tree (`Json.IsExport.renamed`).
-/

namespace DesignAtlas

/-! ## Renamed trees -/

/-- A token under a new tag. -/
def Token.renamed (g : String → String) (t : Token) : Token := { t with tag := g t.tag }

namespace Node

mutual

/-- A node with its tag and those below it renamed. -/
def renamed (g : String → String) : Node → Node
  | token t => token (t.renamed g)
  | leaf => leaf
  | branch tag cs => branch (g tag) (renamedAll g cs)

/-- Some nodes with all their tags renamed. -/
def renamedAll (g : String → String) : List Node → List Node
  | [] => []
  | n :: ns => n.renamed g :: renamedAll g ns

end

variable {g : String → String} {n m : Node}

theorem renamedAll_eq (g : String → String) (ns : List Node) :
    renamedAll g ns = ns.map (renamed g) := by
  induction ns with
  | nil => rfl
  | cons n ns ih => rw [renamedAll, ih, List.map_cons]

@[simp]
theorem tag?_renamed (g : String → String) (n : Node) : (n.renamed g).tag? = n.tag?.map g := by
  cases n <;> rfl

@[simp]
theorem children_renamed (g : String → String) (n : Node) :
    (n.renamed g).children = n.children.map (renamed g) := by
  cases n with
  | branch tag cs => exact renamedAll_eq g cs
  | _ => rfl

/-- **A walk meets the same nodes, renamed.** -/
theorem preorderFrom_renamed (g : String → String) (ns : List Node) :
    preorderFrom (ns.map (renamed g)) = (preorderFrom ns).map (renamed g) := by
  fun_induction preorderFrom ns with
  | case1 => rw [List.map_nil, preorderFrom]
  | case2 n pending ih =>
    rw [List.map_cons, preorderFrom_cons, children_renamed, ← List.map_append, ih, List.map_cons]

theorem descendants_renamed (g : String → String) (n : Node) :
    (n.renamed g).descendants = n.descendants.map (renamed g) := by
  rw [descendants, children_renamed, preorderFrom_renamed]
  rfl

/-- A search finds the same nodes, renamed, if the same nodes are accepted. -/
theorem findAll_renamed {f f' : TagFilter}
    (h : ∀ m ∈ n.descendants, f'.acceptsNode (m.renamed g) = f.acceptsNode m) :
    (n.renamed g).findAll f' none = (n.findAll f none).map (renamed g) := by
  rw [findAll_none, findAll_none, descendants_renamed, List.filter_map]
  exact congrArg (List.map (renamed g)) (List.filter_congr h)

/-! ## Text -/

theorem tokens_renamed (g : String → String) (n : Node) :
    (n.renamed g).tokens .forward = (n.tokens .forward).map (Token.renamed g) := by
  have htoken : ∀ m : Node, (m.renamed g).token? = m.token?.map (Token.renamed g) := by
    intro m
    cases m <;> rfl
  have hwalk : preorderFrom [n.renamed g] = (preorderFrom [n]).map (renamed g) :=
    preorderFrom_renamed g [n]
  rw [tokens, tokens, tokensFrom_forward, tokensFrom_forward, hwalk, List.filterMap_map,
    List.map_filterMap]
  exact List.filterMap_congr fun m _ => htoken m

/-- **The text of a node does not depend on its tags.** -/
theorem text_renamed (g : String → String) (source : Source) (n : Node) :
    (n.renamed g).text source = n.text source := by
  have hstart : (n.renamed g).start? = n.start? := by
    rw [start?_eq, start?_eq, tokens_renamed, List.head?_map, Option.map_map]
    rfl
  have hstop : (n.renamed g).stop? = n.stop? := by
    rw [stop?_eq, stop?_eq, tokens_renamed, List.getLast?_map, Option.map_map]
    rfl
  have hcovered : (n.renamed g).covered source = n.covered source := by
    rw [covered, covered, hstart, hstop]
  cases n with
  | token t => exact congrArg t.text?.getD hcovered
  | leaf => exact hcovered
  | branch tag cs => exact hcovered

/-! ## Tags -/

/-- The tags of a node and of the nodes below it. -/
def tags (n : Node) : List String := n.preorder.filterMap tag?

theorem tags_subset_of_mem (h : m ∈ n.preorder) : m.tags ⊆ n.tags :=
  List.filterMap_subset _ (preorder_subset_of_mem h)

theorem mem_tags_of_tag? {tag : String} (h : n.tag? = some tag) : tag ∈ n.tags := by
  rw [tags, preorder_eq, List.filterMap_cons_some h]
  exact List.mem_cons_self

end Node

/-- A tree with all its tags renamed. -/
def Tree.renamed (g : String → String) (t : Tree) : Tree :=
  { t with tag := g t.tag, children := Node.renamedAll g t.children }

/-! ## Renamed vocabularies -/

namespace TagFilter

/-- The filter of the renamed tags. A leaf has no tag to rename. -/
def renamed (g : String → String) (f : TagFilter) : TagFilter := ⟨f.tags.map (Option.map g)⟩

variable {g : String → String} {f : TagFilter} {known : Set String}

/-- **A node matches after the renaming exactly when it did before**, if the
renaming keeps the tags of both apart. -/
theorem acceptsNode_renamed (hg : known.InjOn g) {n : Node} (hn : ∀ tag ∈ n.tags, tag ∈ known)
    (hf : ∀ tag, some tag ∈ f.tags → tag ∈ known) :
    (f.renamed g).acceptsNode (n.renamed g) = f.acceptsNode n := by
  -- A leaf has no tag before or after, and two tags that become one were one.
  have hsame : ∀ tag? ∈ f.tags, tag?.map g = n.tag?.map g → tag? = n.tag? := by
    intro tag? htag heq
    rcases tag? with - | a <;> rcases hb : n.tag? with - | b
    · rfl
    · simp [hb] at heq
    · simp [hb] at heq
    · rw [hb, Option.map_some, Option.map_some, Option.some.injEq] at heq
      rw [hg (hf a htag) (hn b (Node.mem_tags_of_tag? hb)) heq]
  rw [Bool.eq_iff_iff, acceptsNode, acceptsNode, accepts, accepts, List.contains_iff_mem,
    List.contains_iff_mem, renamed, Node.tag?_renamed, List.mem_map]
  constructor
  · rintro ⟨tag?, htag, heq⟩
    rwa [← hsame tag? htag heq]
  · exact fun htag => ⟨_, htag, rfl⟩

end TagFilter

namespace Vocabulary

/-- A vocabulary with all its tags renamed. -/
def renamed (g : String → String) (v : Vocabulary) : Vocabulary where
  moduleDeclaration := v.moduleDeclaration.renamed g
  moduleHeader := v.moduleHeader.renamed g
  port := v.port.renamed g
  parameter := v.parameter.renamed g
  packageImport := v.packageImport.renamed g
  instanceName := v.instanceName.renamed g
  instantiationType := v.instantiationType.renamed g
  identifier := v.identifier.renamed g

/-- The tags of a vocabulary. -/
def tags (v : Vocabulary) : List String := v.filters.flatMap fun x => x.2.tags.filterMap id

variable {v : Vocabulary} {g : String → String} {known : Set String}

theorem filters_renamed (g : String → String) (v : Vocabulary) :
    (v.renamed g).filters = v.filters.map fun x => (x.1, x.2.renamed g) := rfl

theorem mem_tags_of_mem {x : String × TagFilter} (hx : x ∈ v.filters) {tag : String}
    (htag : some tag ∈ x.2.tags) : tag ∈ v.tags :=
  List.mem_flatMap.2 ⟨x, hx, List.mem_filterMap.2 ⟨some tag, htag, rfl⟩⟩

/-- **A node and the renamed node are read alike**, each with its
vocabulary. -/
theorem readAlike_renamed (hg : known.InjOn g) (hv : ∀ tag ∈ v.tags, tag ∈ known)
    (source : Source) :
    ReadAlike v (v.renamed g) source source
      fun n m => m = n.renamed g ∧ ∀ tag ∈ n.tags, tag ∈ known := by
  refine ⟨?_, ?_⟩
  · rintro n m ⟨rfl, -⟩
    exact (Node.text_renamed g source n).symm
  · rw [filters_renamed, List.forall₂_map_right_iff, List.forall₂_same]
    rintro x hx n m ⟨rfl, hn⟩
    have hbelow : ∀ k ∈ n.descendants, ∀ tag ∈ k.tags, tag ∈ known := by
      intro k hk tag htag
      exact hn tag (Node.tags_subset_of_mem (Node.mem_preorder_of_mem_descendants hk) htag)
    have hfilter : ∀ tag, some tag ∈ x.2.tags → tag ∈ known :=
      fun tag htag => hv tag (mem_tags_of_mem hx htag)
    -- Only the nodes below are searched, and their tags are known: so each of them is accepted
    -- as it was.
    have haccepts : ∀ k ∈ n.descendants,
        (x.2.renamed g).acceptsNode (k.renamed g) = x.2.acceptsNode k :=
      fun k hk => TagFilter.acceptsNode_renamed hg (hbelow k hk) hfilter
    rw [Node.findAll_renamed haccepts, List.forall₂_map_right_iff, List.forall₂_same]
    intro k hk
    exact ⟨rfl, hbelow k (Node.mem_descendants_of_mem_findAll hk)⟩

theorem extract_renamed {t : Tree} (hg : Set.InjOn g {tag | tag ∈ t.root.tags ∨ tag ∈ v.tags})
    (path : String) :
    (v.renamed g).extract path (some (t.renamed g)) = v.extract path (some t) := by
  have halike : ReadAlike v (v.renamed g) t.source (t.renamed g).source _ :=
    readAlike_renamed hg (fun _ => Or.inr) t.source
  exact (halike.extract_eq path ⟨rfl, fun _ => Or.inl⟩).symm

end Vocabulary

/-! ## Exported trees -/

namespace Json

mutual

/-- **An exported node with its tag and those of the nodes below it
renamed.** What stands in other fields stays as it is. -/
def renamed (g : String → String) : Json → Json
  | .obj fields => .obj (renamedFields g fields)
  | j => j

/-- The fields of a renamed node. -/
def renamedFields (g : String → String) : List (CodePoints × Json) → List (CodePoints × Json)
  | [] => []
  | (name, value) :: rest => (name, renamedValue g name value) :: renamedFields g rest

/-- The value of a field of a renamed node: a new text under `tag`, renamed
nodes under `children`, and the same value under any other name. -/
def renamedValue (g : String → String) (name : CodePoints) : Json → Json
  | .str tag => if name = "tag" then .str (g tag.shown) else .str tag
  | .arr items => if name = "children" then .arr (renamedAll g items) else .arr items
  | j => j

/-- Some exported nodes, renamed. -/
def renamedAll (g : String → String) : List Json → List Json
  | [] => []
  | j :: js => j.renamed g :: renamedAll g js

end

variable {g : String → String} {j under : Json} {items : List Json}

theorem renamedAll_eq (g : String → String) (items : List Json) :
    renamedAll g items = items.map (renamed g) := by
  induction items with
  | nil => simp only [renamedAll, List.map_nil]
  | cons c items ih => rw [renamedAll, ih, List.map_cons]

/-! ### Fields -/

theorem lookup_renamedFields (fields : List (CodePoints × Json)) (name : CodePoints) :
    (renamedFields g fields).lookup name = (fields.lookup name).map (renamedValue g name) := by
  induction fields with
  | nil => simp only [renamedFields, List.lookup_nil, Option.map_none]
  | cons field rest ih =>
    obtain ⟨k, value⟩ := field
    rw [renamedFields, List.lookup_cons, List.lookup_cons]
    by_cases hk : name = k
    · subst hk
      simp
    · rw [beq_eq_false_iff_ne.2 hk, ih]

theorem field?_renamed (g : String → String) (j : Json) (name : String) :
    (j.renamed g).field? name = (j.field? name).map (renamedValue g name) := by
  cases j with
  | obj fields => rw [renamed]; exact lookup_renamedFields fields name
  | _ => rfl

theorem renamedValue_of_ne {name : CodePoints} (htag : name ≠ "tag") (hchildren : name ≠ "children")
    (value : Json) : renamedValue g name value = value := by
  cases value with
  | str s => rw [renamedValue, if_neg htag]
  | arr items => rw [renamedValue, if_neg hchildren]
  | _ => rfl

/-- Only the fields `tag` and `children` change. -/
theorem field?_renamed_of_ne (j : Json) {name : String} (htag : CodePoints.ofString name ≠ "tag")
    (hchildren : CodePoints.ofString name ≠ "children") :
    (j.renamed g).field? name = j.field? name := by
  have hvalue : renamedValue g name = id := funext (renamedValue_of_ne htag hchildren)
  rw [field?_renamed, hvalue, Option.map_id, id]

theorem field?_tag_renamed {tag : CodePoints} (h : j.field? "tag" = some (.str tag)) :
    (j.renamed g).field? "tag" = some (.str (g tag.shown)) := by
  rw [field?_renamed, h, Option.map_some, renamedValue, if_pos rfl]

theorem HasTag.renamed (g : String → String) (h : j.HasTag) : (j.renamed g).HasTag := by
  obtain ⟨tag, htag⟩ := h
  exact ⟨_, field?_tag_renamed htag⟩

theorem tagText_renamed (h : j.HasTag) : (j.renamed g).tagText = g j.tagText := by
  obtain ⟨tag, htag⟩ := h
  rw [tagText_eq (field?_tag_renamed htag), tagText_eq htag, CodePoints.shown_ofString]

theorem Lists.renamed (g : String → String) (h : under.Lists items) :
    (renamedValue g "children" under).Lists (items.map (Json.renamed g)) := by
  cases h with
  | null => exact .null
  | arr items =>
    rw [renamedValue, if_pos rfl, renamedAll_eq]
    exact .arr _

/-! ### Nodes -/

theorem IsToken.renamed (g : String → String) (h : j.IsToken) : (j.renamed g).IsToken where
  tag := h.tag.renamed g
  childless := by rw [field?_renamed, h.childless, Option.map_none]
  span := by
    rw [field?_renamed_of_ne j (by decide) (by decide),
      field?_renamed_of_ne j (by decide) (by decide)]
    exact h.span
  text := by
    rw [field?_renamed_of_ne j (by decide) (by decide)]
    exact h.text

/-- The token of a renamed node is the renamed token. -/
theorem mirror_renamed_of_isToken (g : String → String) (h : j.IsToken) (nulls : NullPolicy) :
    (j.renamed g).mirror nulls = (j.mirror nulls).map (Node.renamed g) := by
  have hnumber : ∀ name : String, CodePoints.ofString name ≠ "tag" →
      CodePoints.ofString name ≠ "children" → (j.renamed g).numberAt name = j.numberAt name := by
    intro name htag hchildren
    rw [numberAt, numberAt, field?_renamed_of_ne j htag hchildren]
  have hstart := hnumber "start" (by decide) (by decide)
  have hstop := hnumber "end" (by decide) (by decide)
  have htext : (j.renamed g).ownText? = j.ownText? := by
    rw [ownText?, ownText?, field?_renamed_of_ne j (by decide) (by decide)]
  obtain ⟨hspan, -⟩ := shape_of_isToken h
  have hspan' : (j.renamed g).numberAt "start" ≤ (j.renamed g).numberAt "end" := by
    rwa [hstart, hstop]
  rw [mirror_of_isToken (h.renamed g) hspan', mirror_of_isToken h hspan]
  simp only [mirrorToken, hstart, hstop, htext, tagText_renamed h.tag]
  rfl

theorem flatMap_mirror_renamed {nulls : NullPolicy} (h : ∀ item ∈ items,
      (item.renamed g).mirror nulls = (item.mirror nulls).map (Node.renamed g)) :
    (items.map (renamed g)).flatMap (mirror nulls) =
      Node.renamedAll g (items.flatMap (mirror nulls)) := by
  rw [Node.renamedAll_eq, List.map_flatMap, List.flatMap_map]
  exact List.flatMap_congr h

/-- **A renamed node is an exported node, and stands for the renamed
nodes.** -/
theorem IsNode.renamed (g : String → String) (h : j.IsNode) :
    (j.renamed g).IsNode ∧
      ∀ nulls, (j.renamed g).mirror nulls = (j.mirror nulls).map (Node.renamed g) := by
  induction h with
  | null =>
    refine ⟨.null, fun nulls => ?_⟩
    have hnull : Json.null.renamed g = .null := rfl
    rw [hnull, mirror_null]
    cases nulls <;> rfl
  | token htoken => exact ⟨.token (htoken.renamed g), mirror_renamed_of_isToken g htoken⟩
  | @branch j under items htag hchildren hlists _ ih =>
    have hchildren' : (j.renamed g).field? "children" = some (renamedValue g "children" under) := by
      rw [field?_renamed, hchildren, Option.map_some]
    refine ⟨.branch (htag.renamed g) hchildren' (hlists.renamed g) ?_, fun nulls => ?_⟩
    · intro c hc
      obtain ⟨item, hitem, rfl⟩ := List.mem_map.1 hc
      exact (ih item hitem).1
    · rw [mirror_of_children hchildren', mirror_of_children hchildren,
        listed_eq hchildren' (hlists.renamed g), listed_eq hchildren hlists, tagText_renamed htag,
        flatMap_mirror_renamed fun item hitem => (ih item hitem).2 nulls]
      rfl

/-! ### Whole trees -/

/-- **A renamed tree is an exported tree, and stands for the renamed
tree.** -/
theorem IsExport.renamed (g : String → String) (h : j.IsExport) :
    (j.renamed g).IsExport ∧ ∀ nulls source,
      (j.renamed g).mirrorTree nulls source = (j.mirrorTree nulls source).renamed g := by
  obtain ⟨htag, items, hlists, hall⟩ := isExport_iff.1 h
  have hlists' : ((j.renamed g).field "children").Lists (items.map (Json.renamed g)) := by
    have hfield : (j.renamed g).field "children" =
        renamedValue g "children" (j.field "children") := by
      rw [field, field, field?_renamed]
      cases j.field? "children" <;> rfl
    rw [hfield]
    exact hlists.renamed g
  refine ⟨isExport_iff.2 ⟨htag.renamed g, _, hlists', ?_⟩, fun nulls source => ?_⟩
  · intro c hc
    obtain ⟨item, hitem, rfl⟩ := List.mem_map.1 hc
    exact ((hall item hitem).renamed g).1
  · rw [mirrorTree, mirrorTree, listed_of_field hlists', listed_of_field hlists,
      tagText_renamed htag, flatMap_mirror_renamed fun item hitem =>
        ((hall item hitem).renamed g).2 nulls]
    rfl

end Json

/-- **Which parser named the tags does not matter.** An exported tree and
the tree with renamed tags are both built, the second is the first with its
tags renamed, and if the renaming keeps the tags of the tree and the
vocabulary apart, the renamed vocabulary reads the same modules out of the
renamed tree, and notes the same events. -/
theorem Vocabulary.extract_under_new_tags (v : Vocabulary) (g : String → String) {j : Json}
    (hj : j.IsExport) (nulls : NullPolicy) (source : Source) (path : String) :
    ∃ t t', Tree.ofExport nulls source j = .ok t ∧
      Tree.ofExport nulls source (j.renamed g) = .ok t' ∧ t' = t.renamed g ∧
      (Set.InjOn g {tag | tag ∈ t.root.tags ∨ tag ∈ v.tags} →
        (v.renamed g).extract path (some t') = v.extract path (some t)) := by
  obtain ⟨hj', hmirror⟩ := hj.renamed g
  refine ⟨_, _, Tree.ofExport_of_isExport hj nulls source,
    Tree.ofExport_of_isExport hj' nulls source, hmirror nulls source, fun hg => ?_⟩
  rw [hmirror, extract_renamed hg]

/-- The tags of headers and identifiers, each under the name of the other. -/
def exchanged : Equiv.Perm String := Equiv.swap "kModuleHeader" "SymbolIdentifier"

theorem Vocabulary.exchanged_tags_extract_eq :
    Json.sparseDeclaration.IsExport ∧
      ∃ t t', Tree.ofExport .keep (.text "module m;") Json.sparseDeclaration = .ok t ∧
        Tree.ofExport .keep (.text "module m;") (Json.sparseDeclaration.renamed exchanged) =
          .ok t' ∧
        Set.InjOn exchanged {tag | tag ∈ t.root.tags ∨ tag ∈ verible.tags} ∧
        (verible.renamed exchanged).extract "m.sv" (some t') = verible.extract "m.sv" (some t) := by
  obtain ⟨t, t', ht, ht', -, heq⟩ := verible.extract_under_new_tags exchanged
    Json.isExport_sparseDeclaration .keep (.text "module m;") "m.sv"
  have hinj := exchanged.injective.injOn (s := {tag | tag ∈ t.root.tags ∨ tag ∈ verible.tags})
  exact ⟨Json.isExport_sparseDeclaration, t, t', ht, ht', hinj, heq hinj⟩

end DesignAtlas
