import DesignAtlas.Proofs.OrderedMap
import DesignAtlas.Syntax.Graph
import Mathlib.Data.List.Nodup
import Mathlib.Data.List.Range

/-!
# Parents of living nodes

Nodes are made over nodes that exist, so the children of a node are older than
the node. A node may be put under several others, names are given and dropped in
between, and a parent may die while an older parent still has the child. What
holds after any number of such actions is said by `Sound`: in particular each
node notes the newest of those that have it as a child. One action keeps it
(`Sound.act`), hence any number does (`sound_made`).

So the parent of a living node is the newest node over it if that one lives, and
none otherwise. Parents are newer than their children, and the walk from a node
upwards comes to an end (`Climb`).

The walk leads to the contents that the text of the node is cut out of. A text that
holds halves of surrogate pairs has no bytes to cut, and this is the one case in
which a node has no text, not even an empty one (`exists_text_error_iff`).
-/

namespace DesignAtlas

theorem Source.slice_absent (start stop : ℤ) : Source.absent.slice start stop = "" := by
  rw [slice, cut, bytes, List.drop_nil, List.take_nil]
  rfl

/-! ## Contents with and without bytes -/

namespace Contents

/-- **The source that contents make**: a text of characters, or the bytes as they
are stored. -/
inductive Makes : Contents → Source → Prop
  | absent : Makes .absent .absent
  | text (s : String) : Makes (.text s) (.text s)
  | stored (bs : Bytes) : Makes (.stored bs) (.stored bs)

variable {contents : Contents} {source : Source}

theorem Makes.source_eq (h : contents.Makes source) : contents.source = .ok source := by
  cases h with
  | absent => rfl
  | text s => rw [Contents.source, CodePoints.halves?_ofString, CodePoints.shown_ofString]
  | stored bs => rfl

/-- **Only a text that holds half of a surrogate pair makes no source.** -/
theorem exists_source_error_iff : (∃ run, contents.source = .error run) ↔
    ∃ t, contents = .text t ∧ ∃ code ∈ t.codes, CodePoints.isSurrogate code = true := by
  cases contents with
  | absent => exact ⟨nofun, nofun⟩
  | stored bs => exact ⟨nofun, nofun⟩
  | text t =>
    have hnone : t.halves? = none ↔ ∀ code ∈ t.codes, CodePoints.isSurrogate code = false :=
      CodePoints.unencodableFrom_eq_none_iff
    constructor
    · rintro ⟨run, hrun⟩
      refine ⟨t, rfl, ?_⟩
      by_contra hclear
      have hhalves : t.halves? = none := by
        refine hnone.2 fun code hcode => ?_
        rw [← Bool.not_eq_true]
        exact fun hhalf => hclear ⟨code, hcode, hhalf⟩
      rw [Contents.source, hhalves] at hrun
      cases hrun
    · rintro ⟨t', ht, code, hcode, hhalf⟩
      obtain rfl := Contents.text.inj ht
      rcases hhalves : t.halves? with - | run
      · exact absurd ((hnone.1 hhalves code hcode).symm.trans hhalf) Bool.false_ne_true
      · exact ⟨run, by rw [Contents.source, hhalves]⟩

end Contents

namespace Node

variable {n : Node}

theorem readsSource_iff :
    n.readsSource = true ↔ n.ownText? = none ∧ n.start?.isSome ∧ n.stop?.isSome := by
  rw [readsSource, Bool.and_eq_true, Bool.and_eq_true, Option.isNone_iff_eq_none, and_assoc]

theorem text_of_ownText? {text : String} (h : n.ownText? = some text) (source : Source) :
    n.text source = text := by
  cases n with
  | token t => rw [Node.text, show t.text? = some text from h, Option.getD_some]
  | leaf => cases h
  | branch tag children => cases h

theorem text_eq_covered (h : n.ownText? = none) (source : Source) :
    n.text source = n.covered source := by
  cases n with
  | token t => rw [Node.text, show t.text? = none from h, Option.getD_none]
  | leaf => rfl
  | branch tag children => rfl

theorem covered_absent (n : Node) : n.covered .absent = "" := by
  rw [covered]
  split
  · exact Source.slice_absent _ _
  · rfl

end Node

namespace Graph

/-! ## Actions -/

/-- Gives a living node a name, which is taken from the node that had it. -/
def call (g : Graph) (name : String) (number : ℕ) : Graph :=
  if number ∈ g.living then { g with names := upsert name number g.names } else g

/-- What can be done with nodes. -/
inductive Action where
  /-- Makes a token, if it does not end before it starts. -/
  | token (name tag : String) (start stop : ℤ) (text? : Option String)
  /-- Makes a leaf. -/
  | leaf (name : String)
  /-- Makes a branch or root over the nodes with some names. -/
  | branch (name tag : String) (role : Role) (children : List String)
  /-- Drops names. -/
  | forget (names : List String)
  /-- Gives a living node a name. -/
  | call (name : String) (number : ℕ)

/-- The nodes after an action. -/
def act (g : Graph) : Action → Graph
  | .token name tag start stop text? =>
    match Token.ofSpan tag start stop text? with
    | .ok t => g.addToken name t
    | .error _ => g
  | .leaf name => g.addLeaf name
  | .branch name tag role children => g.addBranch name tag role children
  | .forget names => g.forget names
  | .call name number => g.call name number

/-- **The nodes after some actions**, one after the other. -/
def made (actions : List Action) : Graph := actions.foldl act .empty

/-! ## Living nodes -/

variable {g : Graph} {c : Cell} {held : List ℕ} {cells : List Cell} {n p : ℕ}

/-- **Being alive**, when some nodes are held: a node is held, or a child of one
that is alive. -/
inductive LivesIn (held : List ℕ) (cells : List Cell) : ℕ → Prop
  | held {n : ℕ} : n ∈ held → LivesIn held cells n
  | child {c : Cell} {n : ℕ} :
      c ∈ cells → LivesIn held cells c.number → n ∈ c.children → LivesIn held cells n

/-- **A node lives** while it has a name or a living node has it as a child. -/
def Lives (g : Graph) (n : ℕ) : Prop := LivesIn (g.names.map Prod.snd) g.cells n

theorem LivesIn.mono {cells' : List Cell} (hcells : cells ⊆ cells') (h : LivesIn held cells n) :
    LivesIn held cells' n := by
  induction h with
  | held hn => exact .held hn
  | child hc _ hn ih => exact .child (hcells hc) ih hn

/-- The children of a held node are as good as held. -/
theorem livesIn_cons_of_mem (hc : c.number ∈ held) :
    LivesIn held (c :: cells) n ↔ LivesIn (c.children ++ held) cells n := by
  constructor
  · intro h
    induction h with
    | held hn => exact .held (List.mem_append_right _ hn)
    | child hmem _ hn ih =>
      rcases List.mem_cons.1 hmem with rfl | hmem
      · exact .held (List.mem_append_left _ hn)
      · exact .child hmem ih hn
  · intro h
    induction h with
    | held hn =>
      rcases List.mem_append.1 hn with hn | hn
      · exact .child List.mem_cons_self (.held hc) hn
      · exact .held hn
    | child hmem _ hn ih => exact .child (List.mem_cons_of_mem _ hmem) ih hn

/-- A node that is neither held nor a child keeps nothing alive. -/
theorem LivesIn.of_cons (hc : c.number ∉ held) (hchild : ∀ c' ∈ cells, c.number ∉ c'.children)
    (h : LivesIn held (c :: cells) n) : LivesIn held cells n ∧ n ≠ c.number := by
  induction h with
  | held hn => exact ⟨.held hn, fun heq => hc (heq ▸ hn)⟩
  | child hmem _ hn ih =>
    rcases List.mem_cons.1 hmem with rfl | hmem
    · exact absurd rfl ih.2
    · exact ⟨.child hmem ih.1 hn, fun heq => hchild _ hmem (heq ▸ hn)⟩

/-- **One pass from the newest node to the oldest finds the living ones**, since
no node is a child of an older one. -/
theorem mem_livingFrom_iff
    (h : cells.Pairwise fun newer older => newer.number ∉ older.children) :
    n ∈ livingFrom held cells ↔ n ∈ cells.map Cell.number ∧ LivesIn held cells n := by
  induction cells generalizing held with
  | nil => simp [livingFrom]
  | cons c cells ih =>
    obtain ⟨hchild, hcells⟩ := List.pairwise_cons.1 h
    rw [livingFrom, List.map_cons, List.mem_cons]
    by_cases hc : c.number ∈ held
    · rw [if_pos (List.contains_iff_mem.2 hc), List.mem_cons, ih hcells, livesIn_cons_of_mem hc]
      constructor
      · rintro (rfl | ⟨hn, hlives⟩)
        · exact ⟨Or.inl rfl, .held (List.mem_append_right _ hc)⟩
        · exact ⟨Or.inr hn, hlives⟩
      · rintro ⟨rfl | hn, hlives⟩
        · exact Or.inl rfl
        · exact Or.inr ⟨hn, hlives⟩
    · rw [if_neg (mt List.contains_iff_mem.1 hc), ih hcells]
      constructor
      · rintro ⟨hn, hlives⟩
        exact ⟨Or.inr hn, hlives.mono (List.subset_cons_self _ _)⟩
      · rintro ⟨hn, hlives⟩
        obtain ⟨hlives, hne⟩ := hlives.of_cons hc hchild
        exact ⟨hn.resolve_left hne, hlives⟩

/-! ## What holds after any actions -/

/-- The newest node that has a given one as a child. -/
def newestOver? (g : Graph) (n : ℕ) : Option ℕ :=
  (g.cells.find? fun c => c.children.contains n).map Cell.number

/-- The tree of a node. -/
def treeOf? (g : Graph) (n : ℕ) : Option Node := (g.cell? n).map Cell.tree

/-- **What holds of nodes that were made one by one.** -/
structure Sound (g : Graph) : Prop where
  /-- The numbers count down to zero. -/
  numbers : g.cells.map Cell.number = (List.range g.cells.length).reverse
  /-- Children are older. -/
  children_lt : ∀ c ∈ g.cells, ∀ k ∈ c.children, k < c.number
  /-- A node notes the newest one over it. -/
  parents : ∀ c ∈ g.cells, c.parent = g.newestOver? c.number
  /-- The tree of a node is over the trees of its children. -/
  trees : ∀ c ∈ g.cells, c.children.map g.treeOf? = c.tree.children.map some
  /-- Names are names of nodes. -/
  names_lt : ∀ x ∈ g.names, x.2 < g.cells.length

namespace Sound

theorem nodup (h : g.Sound) : (g.cells.map Cell.number).Nodup := by
  rw [h.numbers, List.nodup_reverse]
  exact List.nodup_range

theorem mem_numbers_iff (h : g.Sound) : n ∈ g.cells.map Cell.number ↔ n < g.cells.length := by
  rw [h.numbers, List.mem_reverse, List.mem_range]

theorem number_lt (h : g.Sound) (hc : c ∈ g.cells) : c.number < g.cells.length :=
  h.mem_numbers_iff.1 (List.mem_map_of_mem hc)

theorem cell?_eq_some_iff (h : g.Sound) : g.cell? n = some c ↔ c ∈ g.cells ∧ c.number = n := by
  constructor
  · intro hc
    have hnumber := List.find?_some (p := fun c : Cell => c.number == n) hc
    exact ⟨List.mem_of_find?_eq_some hc, beq_iff_eq.1 hnumber⟩
  · rintro ⟨hc, rfl⟩
    obtain ⟨c', hc'⟩ : ∃ c', g.cell? c.number = some c' :=
      Option.isSome_iff_exists.1 (List.find?_isSome.2 ⟨c, hc, beq_iff_eq.2 rfl⟩)
    have hnumber := List.find?_some (p := fun c' : Cell => c'.number == c.number) hc'
    have hmem : c' ∈ g.cells := List.mem_of_find?_eq_some hc'
    rw [hc', List.inj_on_of_nodup_map h.nodup hmem hc (beq_iff_eq.1 hnumber)]

theorem exists_cell (h : g.Sound) (hn : n < g.cells.length) : ∃ c, g.cell? n = some c := by
  obtain ⟨c, hc, hnumber⟩ := List.mem_map.1 (h.mem_numbers_iff.2 hn)
  exact ⟨c, h.cell?_eq_some_iff.2 ⟨hc, hnumber⟩⟩

theorem descending (h : g.Sound) :
    g.cells.Pairwise fun newer older => older.number < newer.number := by
  rw [← List.pairwise_map (f := Cell.number) (R := fun a b => b < a), h.numbers,
    List.pairwise_reverse]
  exact List.pairwise_lt_range

theorem lt_of_lives (h : g.Sound) (hn : g.Lives n) : n < g.cells.length := by
  cases hn with
  | held hn =>
    obtain ⟨x, hx, rfl⟩ := List.mem_map.1 hn
    exact h.names_lt x hx
  | child hc _ hn => exact (h.children_lt _ hc _ hn).trans (h.number_lt hc)

theorem mem_living_iff (h : g.Sound) : n ∈ g.living ↔ g.Lives n := by
  have hpairwise : g.cells.Pairwise fun newer older => newer.number ∉ older.children := by
    refine h.descending.imp_of_mem fun {newer older} _ holder hlt hmem => ?_
    have := h.children_lt older holder _ hmem
    omega
  rw [living, mem_livingFrom_iff hpairwise, h.mem_numbers_iff]
  exact and_iff_right_of_imp h.lt_of_lives

end Sound

/-! ## A node more -/

/-- A node after another was made over some children. -/
def Cell.adopted (children : List ℕ) (number : ℕ) (c : Cell) : Cell :=
  if children.contains c.number then { c with parent := some number } else c

namespace Cell

variable {children : List ℕ} {number : ℕ}

@[simp] theorem number_adopted (c : Cell) : (c.adopted children number).number = c.number := by
  rw [adopted]
  split <;> rfl

@[simp] theorem tree_adopted (c : Cell) : (c.adopted children number).tree = c.tree := by
  rw [adopted]
  split <;> rfl

@[simp] theorem children_adopted (c : Cell) :
    (c.adopted children number).children = c.children := by
  rw [adopted]
  split <;> rfl

theorem parent_adopted (c : Cell) :
    (c.adopted children number).parent =
      if c.number ∈ children then some number else c.parent := by
  rw [adopted]
  by_cases hc : c.number ∈ children
  · rw [if_pos hc, if_pos (List.contains_iff_mem.2 hc)]
  · rw [if_neg hc, if_neg (mt List.contains_iff_mem.1 hc)]

end Cell

section Add

variable {name : String} {tree : Node} {role : Role} {children : List ℕ}

theorem cells_add (g : Graph) (name : String) (tree : Node) (role : Role) (children : List ℕ) :
    (g.add name tree role children).cells =
      ⟨g.cells.length, tree, role, children, none⟩ ::
        g.cells.map (Cell.adopted children g.cells.length) :=
  rfl

theorem mem_cells_add (hc : c ∈ (g.add name tree role children).cells) :
    c = ⟨g.cells.length, tree, role, children, none⟩ ∨
      ∃ old ∈ g.cells, c = old.adopted children g.cells.length := by
  rw [cells_add, List.mem_cons, List.mem_map] at hc
  exact hc.imp_right fun ⟨old, hold, heq⟩ => ⟨old, hold, heq.symm⟩

/-- An old node keeps its tree. -/
theorem treeOf?_add (hn : n < g.cells.length) :
    (g.add name tree role children).treeOf? n = g.treeOf? n := by
  have hnew : ¬ (g.cells.length == n) = true := fun heq => by
    have := beq_iff_eq.1 heq
    omega
  rw [treeOf?, treeOf?, cell?, cell?, cells_add,
    List.find?_cons_of_neg (p := fun c : Cell => c.number == n) hnew, List.find?_map,
    Option.map_map]
  simp only [Function.comp_def, Cell.number_adopted, Cell.tree_adopted]

/-- The new node is the newest one over its children. -/
theorem newestOver?_add (g : Graph) (n : ℕ) :
    (g.add name tree role children).newestOver? n =
      if n ∈ children then some g.cells.length else g.newestOver? n := by
  rw [newestOver?, newestOver?, cells_add]
  by_cases hn : n ∈ children
  · have hnew : children.contains n = true := List.contains_iff_mem.2 hn
    rw [if_pos hn, List.find?_cons_of_pos (p := fun c : Cell => c.children.contains n) hnew]
    rfl
  · have hnew : ¬ children.contains n = true := mt List.contains_iff_mem.1 hn
    rw [if_neg hn, List.find?_cons_of_neg (p := fun c : Cell => c.children.contains n) hnew,
      List.find?_map, Option.map_map]
    simp only [Function.comp_def, Cell.number_adopted, Cell.children_adopted]

namespace Sound

theorem lt_of_treeOf? (h : g.Sound) {node : Node} (hn : g.treeOf? n = some node) :
    n < g.cells.length := by
  obtain ⟨c, hc, -⟩ := Option.map_eq_some_iff.1 hn
  obtain ⟨hmem, rfl⟩ := h.cell?_eq_some_iff.1 hc
  exact h.number_lt hmem

theorem newestOver?_length (h : g.Sound) : g.newestOver? g.cells.length = none := by
  rw [newestOver?, Option.map_eq_none_iff, List.find?_eq_none]
  intro c hc hmem
  have hlt := h.children_lt c hc _ (List.contains_iff_mem.1 hmem)
  have := h.number_lt hc
  omega

/-- **Making a node over existing ones keeps all this.** -/
theorem add (h : g.Sound) (name : String) (role : Role)
    (htree : children.map g.treeOf? = tree.children.map some) :
    (g.add name tree role children).Sound := by
  have hchildren : ∀ k ∈ children, k < g.cells.length := by
    intro k hk
    have hmem : g.treeOf? k ∈ tree.children.map some := htree ▸ List.mem_map_of_mem hk
    obtain ⟨node, -, hnode⟩ := List.mem_map.1 hmem
    exact h.lt_of_treeOf? hnode.symm
  have hlength : (g.add name tree role children).cells.length = g.cells.length + 1 := by
    rw [cells_add, List.length_cons, List.length_map]
  refine ⟨?_, fun c hc => ?_, fun c hc => ?_, fun c hc => ?_, fun x hx => ?_⟩
  · rw [hlength, List.range_succ, List.reverse_append, ← h.numbers, cells_add, List.map_cons,
      List.map_map]
    simp only [Function.comp_def, Cell.number_adopted]
    rfl
  · rcases mem_cells_add hc with rfl | ⟨old, hold, rfl⟩
    · exact hchildren
    · rw [Cell.children_adopted, Cell.number_adopted]
      exact h.children_lt old hold
  · rw [newestOver?_add]
    rcases mem_cells_add hc with rfl | ⟨old, hold, rfl⟩
    · rw [if_neg fun hmem => (hchildren _ hmem).false]
      exact h.newestOver?_length.symm
    · rw [Cell.parent_adopted, Cell.number_adopted, h.parents old hold]
  · rcases mem_cells_add hc with rfl | ⟨old, hold, rfl⟩
    · rw [← htree]
      exact List.map_congr_left fun k hk => treeOf?_add (hchildren k hk)
    · rw [Cell.children_adopted, Cell.tree_adopted, ← h.trees old hold]
      refine List.map_congr_left fun k hk => treeOf?_add ?_
      exact (h.children_lt old hold k hk).trans (h.number_lt hold)
  · rw [hlength]
    rcases mem_upsert hx with heq | hx
    · rw [heq]
      exact Nat.lt_succ_self _
    · exact (h.names_lt x hx).trans (Nat.lt_succ_self _)

theorem withNames (h : g.Sound) {names : List (String × ℕ)}
    (hnames : ∀ x ∈ names, x.2 < g.cells.length) : Sound { g with names } :=
  ⟨h.numbers, h.children_lt, h.parents, h.trees, hnames⟩

end Sound

end Add

/-! ## Actions, one by one -/

theorem lives_of_named? {name : String} (h : g.Sound) (hc : g.named? name = some c) :
    g.Lives c.number ∧ g.treeOf? c.number = some c.tree := by
  obtain ⟨k, hk, hcell⟩ := Option.bind_eq_some_iff.1 hc
  obtain ⟨-, rfl⟩ := h.cell?_eq_some_iff.1 hcell
  obtain ⟨before, after, hnames, -⟩ := List.lookup_eq_some_iff.1 hk
  refine ⟨.held (List.mem_map.2 ⟨(name, c.number), ?_, rfl⟩), by rw [treeOf?, hcell]; rfl⟩
  rw [hnames]
  exact List.mem_append_right _ List.mem_cons_self

/-- **What an action can do**: nothing, make a node over living ones, or give
names to living nodes only. -/
theorem Sound.act_cases (h : g.Sound) (a : Action) :
    g.act a = g ∨
      (∃ name tree role children, g.act a = g.add name tree role children ∧
        (∀ k ∈ children, g.Lives k) ∧ children.map g.treeOf? = tree.children.map some) ∨
      ∃ names, g.act a = { g with names } ∧ ∀ x ∈ names, g.Lives x.2 := by
  have hnamed : ∀ x ∈ g.names, g.Lives x.2 := fun x hx => .held (List.mem_map_of_mem hx)
  cases a with
  | token name tag start stop text? =>
    rcases hspan : Token.ofSpan tag start stop text? with e | t
    · exact Or.inl (by rw [act, hspan])
    · refine Or.inr (Or.inl ⟨name, .token t, .inner, [], ?_, by simp, rfl⟩)
      rw [act, hspan]
      rfl
  | leaf name => exact Or.inr (Or.inl ⟨name, .leaf, .inner, [], rfl, by simp, rfl⟩)
  | branch name tag role children =>
    refine Or.inr (Or.inl ⟨name, _, role, _, rfl, fun k hk => ?_, ?_⟩)
    · obtain ⟨c, hc, rfl⟩ := List.mem_map.1 hk
      obtain ⟨child, -, hchild⟩ := List.mem_filterMap.1 hc
      exact (lives_of_named? h hchild).1
    · rw [Node.children, List.map_map, List.map_map]
      refine List.map_congr_left fun c hc => ?_
      obtain ⟨child, -, hchild⟩ := List.mem_filterMap.1 hc
      exact (lives_of_named? h hchild).2
  | forget names =>
    exact Or.inr (Or.inr ⟨_, rfl, fun x hx => hnamed x (List.mem_filter.1 hx).1⟩)
  | call name number =>
    by_cases hnumber : number ∈ g.living
    · refine Or.inr (Or.inr ⟨_, if_pos hnumber, fun x hx => ?_⟩)
      rcases mem_upsert hx with heq | hx
      · rw [heq]
        exact h.mem_living_iff.1 hnumber
      · exact hnamed x hx
    · exact Or.inl (if_neg hnumber)

/-- **An action keeps nodes sound.** -/
theorem Sound.act (h : g.Sound) (a : Action) : (g.act a).Sound := by
  rcases h.act_cases a with heq | ⟨name, tree, role, children, heq, -, htree⟩ | ⟨names, heq, hnames⟩
  · rwa [heq]
  · rw [heq]
    exact h.add name role htree
  · rw [heq]
    exact h.withNames fun x hx => h.lt_of_lives (hnames x hx)

theorem sound_empty : Graph.empty.Sound :=
  ⟨rfl, by simp [empty], by simp [empty], by simp [empty], by simp [empty]⟩

theorem Sound.foldl_act (h : g.Sound) (actions : List Action) :
    (actions.foldl Graph.act g).Sound := by
  induction actions generalizing g with
  | nil => exact h
  | cons a actions ih => exact ih (h.act a)

/-- **Nodes are sound after any actions.** -/
theorem sound_made (actions : List Action) : (made actions).Sound :=
  sound_empty.foldl_act actions

/-! ## Dead nodes stay dead -/

theorem lives_of_lives_add (h : g.Sound) {name : String} {tree : Node} {role : Role}
    {children : List ℕ} (hchildren : ∀ k ∈ children, g.Lives k)
    (hn : (g.add name tree role children).Lives n) : n = g.cells.length ∨ g.Lives n := by
  induction hn with
  | held hn =>
    obtain ⟨x, hx, rfl⟩ := List.mem_map.1 hn
    exact (mem_upsert hx).imp_right fun hx => .held (List.mem_map_of_mem hx)
  | child hc _ hn ih =>
    rcases mem_cells_add hc with rfl | ⟨old, hold, rfl⟩
    · exact Or.inr (hchildren _ hn)
    · rw [Cell.number_adopted] at ih
      rw [Cell.children_adopted] at hn
      have hold' := ih.resolve_left (h.number_lt hold).ne
      exact Or.inr (.child hold hold' hn)

theorem lives_of_lives_withNames {names : List (String × ℕ)} (hnames : ∀ x ∈ names, g.Lives x.2)
    (hn : Lives { g with names } n) : g.Lives n := by
  induction hn with
  | held hn =>
    obtain ⟨x, hx, rfl⟩ := List.mem_map.1 hn
    exact hnames x hx
  | child hc _ hn ih => exact .child hc ih hn

/-- **A node that lives after an action is new or lived before it.** -/
theorem Sound.lives_of_act (h : g.Sound) (a : Action) (hlt : n < g.cells.length)
    (hn : (g.act a).Lives n) : g.Lives n := by
  rcases h.act_cases a with heq | ⟨name, tree, role, children, heq, hchildren, -⟩ |
    ⟨names, heq, hnames⟩
  · rwa [heq] at hn
  · rw [heq] at hn
    exact (lives_of_lives_add h hchildren hn).resolve_left hlt.ne
  · rw [heq] at hn
    exact lives_of_lives_withNames hnames hn

theorem Sound.length_le_act (h : g.Sound) (a : Action) :
    g.cells.length ≤ (g.act a).cells.length := by
  rcases h.act_cases a with heq | ⟨name, tree, role, children, heq, -, -⟩ | ⟨names, heq, -⟩
  · rw [heq]
  · rw [heq, cells_add, List.length_cons, List.length_map]
    exact Nat.le_succ _
  · rw [heq]

theorem Sound.lives_of_foldl_act (h : g.Sound) (later : List Action) (hlt : n < g.cells.length)
    (hn : (later.foldl Graph.act g).Lives n) : g.Lives n := by
  induction later generalizing g with
  | nil => exact hn
  | cons a later ih =>
    exact h.lives_of_act a hlt (ih (h.act a) (hlt.trans_le (h.length_le_act a)) hn)

/-! ## The newest node over another -/

/-- A node has another as a child. -/
def Lists (g : Graph) (p n : ℕ) : Prop := ∃ c ∈ g.cells, c.number = p ∧ n ∈ c.children

instance (g : Graph) (p n : ℕ) : Decidable (g.Lists p n) :=
  inferInstanceAs (Decidable (∃ c ∈ g.cells, c.number = p ∧ n ∈ c.children))

/-- **The newest of the nodes that have another as a child.** -/
def IsNewestOver (g : Graph) (p n : ℕ) : Prop := g.Lists p n ∧ ∀ q, g.Lists q n → q ≤ p

namespace Sound

theorem isNewestOver_of_newestOver? (h : g.Sound) (hp : g.newestOver? n = some p) :
    g.IsNewestOver p n := by
  obtain ⟨c, hfind, rfl⟩ := Option.map_eq_some_iff.1 hp
  obtain ⟨hn, newer, older, hcells, hnewer⟩ := List.find?_eq_some_iff_append.1 hfind
  have hmem : c ∈ g.cells := List.mem_of_find?_eq_some hfind
  refine ⟨⟨c, hmem, rfl, List.contains_iff_mem.1 hn⟩, ?_⟩
  rintro q ⟨c', hc', rfl, hn'⟩
  have hdescending := h.descending
  rw [hcells] at hc' hdescending
  rcases List.mem_append.1 hc' with hc' | hc'
  · have := hnewer c' hc'
    simp [hn'] at this
  · rcases List.mem_cons.1 hc' with rfl | hc'
    · exact le_rfl
    · exact ((List.pairwise_cons.1 (List.pairwise_append.1 hdescending).2.1).1 c' hc').le

theorem newestOver?_eq_some_iff (h : g.Sound) :
    g.newestOver? n = some p ↔ g.IsNewestOver p n := by
  refine ⟨h.isNewestOver_of_newestOver?, fun hp => ?_⟩
  obtain ⟨c, hc, -, hn⟩ := hp.1
  obtain ⟨c', hfind⟩ : ∃ c', g.cells.find? (fun c => c.children.contains n) = some c' :=
    Option.isSome_iff_exists.1 (List.find?_isSome.2 ⟨c, hc, List.contains_iff_mem.2 hn⟩)
  have hnewest : g.newestOver? n = some c'.number := by rw [newestOver?, hfind]; rfl
  have hp' := h.isNewestOver_of_newestOver? hnewest
  rw [hnewest, le_antisymm (hp.2 _ hp'.1) (hp'.2 _ hp.1)]

/-- **The parent of a node is the newest node over it, if that one lives.** -/
theorem parent?_eq_some_iff (h : g.Sound) (hc : g.cell? n = some c) :
    g.parent? n = some p ↔ g.IsNewestOver p n ∧ g.Lives p := by
  obtain ⟨hmem, rfl⟩ := h.cell?_eq_some_iff.1 hc
  rw [parent?, hc, Option.bind_some, Option.filter_eq_some_iff, h.parents c hmem,
    h.newestOver?_eq_some_iff, List.contains_iff_mem, h.mem_living_iff]

theorem lt_of_isNewestOver (h : g.Sound) (hp : g.IsNewestOver p n) : n < p := by
  obtain ⟨⟨c, hc, rfl, hn⟩, -⟩ := hp
  exact h.children_lt c hc n hn

end Sound

/-! ## The walk upwards -/

/-- **The walk from a node upwards**, and the contents that it ends with: those of
the first root, or none where a node without a parent comes first. -/
inductive Climb (g : Graph) : ℕ → Option Contents → Prop
  /-- A root is bound to its own contents. -/
  | root {n : ℕ} {c : Cell} {bound : Option Contents} :
      g.cell? n = some c → c.role = .root bound → Climb g n bound
  /-- A node without a parent is bound to none. -/
  | top {n : ℕ} {c : Cell} :
      g.cell? n = some c → c.role = .inner → g.parent? n = none → Climb g n none
  /-- Any other node is bound to what its parent is bound to. -/
  | up {n p : ℕ} {c : Cell} {bound : Option Contents} :
      g.cell? n = some c → c.role = .inner → g.parent? n = some p → Climb g p bound →
      Climb g n bound

/-- As many steps as there are newer nodes are enough. -/
theorem Sound.climb_boundFrom (h : g.Sound) (steps : ℕ) (hn : n < g.cells.length)
    (hsteps : g.cells.length - n ≤ steps) : g.Climb n (g.boundFrom steps n) := by
  induction steps generalizing n with
  | zero => omega
  | succ steps ih =>
    obtain ⟨c, hc⟩ := h.exists_cell hn
    rw [boundFrom, hc, Option.bind_some]
    cases hrole : c.role with
    | root bound => exact .root hc hrole
    | inner =>
      rcases hp : g.parent? n with - | p
      · exact .top hc hrole hp
      · obtain ⟨hnewest, hlives⟩ := (h.parent?_eq_some_iff hc).1 hp
        have hlt := h.lt_of_isNewestOver hnewest
        have := h.lt_of_lives hlives
        exact .up hc hrole hp (ih this (by omega))

/-- The steps follow the walk, wherever it leads. -/
theorem Sound.boundFrom_eq_of_climb (h : g.Sound) {bound : Option Contents}
    (hclimb : g.Climb n bound) {steps : ℕ} (hn : n < g.cells.length)
    (hsteps : g.cells.length - n ≤ steps) : g.boundFrom steps n = bound := by
  induction hclimb generalizing steps with
  | root hc hrole =>
    cases steps with
    | zero => omega
    | succ steps => rw [boundFrom, hc, Option.bind_some, hrole]
  | top hc hrole hp =>
    cases steps with
    | zero => omega
    | succ steps => rw [boundFrom, hc, Option.bind_some, hrole, hp, Option.bind_none]
  | up hc hrole hp _ ih =>
    cases steps with
    | zero => omega
    | succ steps =>
      obtain ⟨hnewest, hlives⟩ := (h.parent?_eq_some_iff hc).1 hp
      have hlt := h.lt_of_isNewestOver hnewest
      rw [boundFrom, hc, Option.bind_some, hrole, hp, Option.bind_some]
      exact ih (h.lt_of_lives hlives) (by omega)

/-- **The walk upwards ends, with the contents that the node is bound to.** -/
theorem Sound.climb_iff (h : g.Sound) (hn : n < g.cells.length) {bound : Option Contents} :
    g.Climb n bound ↔ g.bound? n = bound := by
  have hsteps : g.cells.length - n ≤ g.cells.length := Nat.sub_le _ _
  constructor
  · exact fun hclimb => h.boundFrom_eq_of_climb hclimb hn hsteps
  · rintro rfl
    exact h.climb_boundFrom g.cells.length hn hsteps

/-! ## Text -/

theorem text_of_ownText? {text : String} (h : c.tree.ownText? = some text) :
    g.text c = .ok text := by
  have hreads : ¬ c.tree.readsSource = true := by
    rw [Node.readsSource_iff, h]
    rintro ⟨hnone, -⟩
    cases hnone
  rw [Graph.text, if_neg hreads, Node.text_of_ownText? h]

/-- **Without a span, a root or a source there is no text.** -/
theorem text_eq_empty (h : c.tree.ownText? = none)
    (hmissing : c.tree.start? = none ∨ c.tree.stop? = none ∨ g.bound? c.number = none ∨
      g.bound? c.number = some .absent) : g.text c = .ok "" := by
  rw [Graph.text]
  split
  · rename_i hreads
    obtain ⟨-, hstart, hstop⟩ := Node.readsSource_iff.1 hreads
    have hcontents : (g.bound? c.number).getD .absent = .absent := by
      rcases hmissing with hnone | hnone | hnone | habsent
      · rw [hnone] at hstart
        cases hstart
      · rw [hnone] at hstop
        cases hstop
      · rw [hnone, Option.getD_none]
      · rw [habsent, Option.getD_some]
    rw [hcontents, Contents.source, Except.map, Node.text_eq_covered h, Node.covered_absent]
  · rw [Node.text_eq_covered h, Node.covered_absent]

theorem text_of_span {start stop : ℤ} {contents : Contents} {source : Source}
    (h : c.tree.ownText? = none) (hstart : c.tree.start? = some start)
    (hstop : c.tree.stop? = some stop) (hbound : g.bound? c.number = some contents)
    (hsource : contents.Makes source) : g.text c = .ok (source.slice start stop) := by
  have hreads : c.tree.readsSource = true :=
    Node.readsSource_iff.2 ⟨h, by rw [hstart]; rfl, by rw [hstop]; rfl⟩
  rw [Graph.text, if_pos hreads, hbound, Option.getD_some, hsource.source_eq, Except.map,
    Node.text_eq_covered h, Node.covered, hstart, hstop]

/-- **Exactly the text that has to be cut out of contents without bytes fails.** -/
theorem exists_text_error_iff : (∃ run, g.text c = .error run) ↔
    c.tree.ownText? = none ∧ c.tree.start?.isSome ∧ c.tree.stop?.isSome ∧
      ∃ t, g.bound? c.number = some (.text t) ∧
        ∃ code ∈ t.codes, CodePoints.isSurrogate code = true := by
  constructor
  · rintro ⟨run, hrun⟩
    rw [Graph.text] at hrun
    split at hrun
    · rename_i hreads
      obtain ⟨hown, hstart, hstop⟩ := Node.readsSource_iff.1 hreads
      rcases hbound : g.bound? c.number with - | contents
      · rw [hbound] at hrun
        cases hrun
      rw [hbound, Option.getD_some] at hrun
      rcases hsource : contents.source with e | source
      · obtain ⟨t, rfl, hhalf⟩ := Contents.exists_source_error_iff.1 ⟨e, hsource⟩
        exact ⟨hown, hstart, hstop, t, rfl, hhalf⟩
      · rw [hsource] at hrun
        cases hrun
    · cases hrun
  · rintro ⟨hown, hstart, hstop, t, hbound, hhalf⟩
    obtain ⟨run, hrun⟩ := Contents.exists_source_error_iff.2 ⟨t, rfl, hhalf⟩
    refine ⟨run, ?_⟩
    rw [Graph.text, if_pos (Node.readsSource_iff.2 ⟨hown, hstart, hstop⟩), hbound,
      Option.getD_some, hrun]
    rfl

/-! ## After any actions -/

/-- **Parents, roots and texts of living nodes, after any actions.** The parent
of a living node is the newest node that has it as a child, if that one lives,
and otherwise it has none; so a parent is newer. The walk from the node upwards
ends, with the contents of the first root or none. The text is that of the
token, or the part of those contents from the first token to the last, or empty
where one of these is missing. It fails where the contents are a text that holds
half of a surrogate pair, and in no other case. The tree of the node is over the
trees of its children, and a node that was dead after some of the actions is not
alive after all. -/
theorem living_node_resolved (actions : List Action) {n : ℕ} (hn : (made actions).Lives n) :
    (∀ earlier later, actions = earlier ++ later → n < (made earlier).cells.length →
        (made earlier).Lives n) ∧
      ∃ c, (made actions).cell? n = some c ∧
        (∀ p, (made actions).parent? n = some p ↔
          (made actions).IsNewestOver p n ∧ (made actions).Lives p) ∧
        (∀ p, (made actions).parent? n = some p → n < p) ∧
        (∀ bound, (made actions).Climb n bound ↔ (made actions).bound? n = bound) ∧
        c.children.map (made actions).treeOf? = c.tree.children.map some ∧
        (∀ text, c.tree.ownText? = some text → (made actions).text c = .ok text) ∧
        (c.tree.ownText? = none →
          (c.tree.start? = none ∨ c.tree.stop? = none ∨ (made actions).bound? n = none ∨
            (made actions).bound? n = some .absent → (made actions).text c = .ok "") ∧
          ∀ start stop contents source, c.tree.start? = some start →
            c.tree.stop? = some stop → (made actions).bound? n = some contents →
            contents.Makes source → (made actions).text c = .ok (source.slice start stop)) ∧
        ((∃ run, (made actions).text c = .error run) ↔
          c.tree.ownText? = none ∧ c.tree.start?.isSome ∧ c.tree.stop?.isSome ∧
            ∃ t, (made actions).bound? n = some (.text t) ∧
              ∃ code ∈ t.codes, CodePoints.isSurrogate code = true) := by
  have hsound := sound_made actions
  have hlt := hsound.lt_of_lives hn
  obtain ⟨c, hc⟩ := hsound.exists_cell hlt
  obtain ⟨hmem, rfl⟩ := hsound.cell?_eq_some_iff.1 hc
  refine ⟨?_, c, hc, fun p => hsound.parent?_eq_some_iff hc, fun p hp => ?_,
    fun bound => hsound.climb_iff hlt, hsound.trees c hmem, fun text => text_of_ownText?,
    fun hown => ⟨text_eq_empty hown, fun start stop contents source => text_of_span hown⟩,
    exists_text_error_iff⟩
  · rintro earlier later rfl hearlier
    rw [made, List.foldl_append] at hn
    exact (sound_made earlier).lives_of_foldl_act later hearlier hn
  · exact hsound.lt_of_isNewestOver ((hsound.parent?_eq_some_iff hc).1 hp).1

/-- A token under a branch, twice, and then under a root, which is dropped. In
between a token is refused. -/
def sharedToken : List Action := [
  .token "t" "word" 0 2 none,
  .branch "b" "pair" .inner ["t", "t"],
  .token "x" "word" 3 1 none,
  .branch "r" "file" (.root (some (.text "ab"))) ["t"],
  .forget ["t", "r"]]

/-- The token lives under the branch, but its parent was the root and is dead. -/
theorem sharedToken_without_parent :
    (made sharedToken).Lives 0 ∧ (made sharedToken).Lists 1 0 ∧ (made sharedToken).Lives 1 ∧
      (made sharedToken).IsNewestOver 2 0 ∧ ¬ (made sharedToken).Lives 2 ∧
      (made sharedToken).parent? 0 = none ∧ (made sharedToken).Climb 0 none ∧
      ∃ c, (made sharedToken).cell? 0 = some c ∧ (made sharedToken).text c = .ok "" := by
  have hsound := sound_made sharedToken
  have hliving : (made sharedToken).living = [1, 0] := by decide
  have hparent : (made sharedToken).parent? 0 = none := by decide
  have hbound : (made sharedToken).bound? 0 = none := by decide
  have hnewest : (made sharedToken).newestOver? 0 = some 2 := by decide
  have hown : ((made sharedToken).cell? 0).map (fun c => c.tree.ownText?) = some none := by decide
  have htoken : (made sharedToken).Lives 0 := hsound.mem_living_iff.1 (by rw [hliving]; decide)
  obtain ⟨-, c, hc, -, -, hclimb, -, -, htext, -⟩ := living_node_resolved sharedToken htoken
  rw [hc] at hown
  refine ⟨htoken, by decide, hsound.mem_living_iff.1 (by rw [hliving]; decide),
    hsound.newestOver?_eq_some_iff.1 hnewest, fun hroot => ?_, hparent, (hclimb none).2 hbound,
    c, hc, (htext (Option.some.inj hown)).1 (Or.inr (Or.inr (Or.inl hbound)))⟩
  rw [← hsound.mem_living_iff, hliving] at hroot
  exact absurd hroot (by decide)

/-- A token under a root whose contents are half of a surrogate pair. -/
def tokenOverHalf : List Action := [
  .token "t" "word" 0 1 none,
  .branch "r" "file" (.root (some (.text ⟨[0xD800]⟩))) ["t"]]

/-- Token, root and contents are there, and yet the text fails. -/
theorem tokenOverHalf_text_fails :
    (made tokenOverHalf).Lives 0 ∧ (made tokenOverHalf).parent? 0 = some 1 ∧
      (made tokenOverHalf).Climb 0 (some (.text ⟨[0xD800]⟩)) ∧
      ∃ c, (made tokenOverHalf).cell? 0 = some c ∧ c.tree.start? = some 0 ∧
        c.tree.stop? = some 1 ∧
        ∃ run, (made tokenOverHalf).text c = .error run ∧ run.message =
          "'utf-8' codec can't encode character '\\ud800' in position 0: " ++
            "surrogates not allowed" := by
  have hsound := sound_made tokenOverHalf
  have hliving : (made tokenOverHalf).living = [1, 0] := by decide
  have hbound : (made tokenOverHalf).bound? 0 = some (.text ⟨[0xD800]⟩) := by decide
  have htoken : (made tokenOverHalf).Lives 0 := hsound.mem_living_iff.1 (by rw [hliving]; decide)
  obtain ⟨t, htree, hstart, hstop, htext⟩ :
      ∃ t, (made tokenOverHalf).treeOf? 0 = some (.token t) ∧ t.start = 0 ∧ t.stop = 1 ∧
        t.text? = none :=
    ⟨_, rfl, rfl, rfl, rfl⟩
  obtain ⟨c, hc, hnode⟩ := Option.map_eq_some_iff.1 htree
  obtain ⟨-, hnumber⟩ := hsound.cell?_eq_some_iff.1 hc
  have hfirst : c.tree.start? = some 0 := by
    rw [hnode, Node.start?, Node.firstTokenFrom, Option.map_some, hstart]
  have hlast : c.tree.stop? = some 1 := by
    rw [hnode, Node.stop?, Node.firstTokenFrom, Option.map_some, hstop]
  have hreads : c.tree.readsSource = true :=
    Node.readsSource_iff.2 ⟨by rw [hnode]; exact htext, by rw [hfirst]; rfl, by rw [hlast]; rfl⟩
  refine ⟨htoken, by decide, (hsound.climb_iff (hsound.lt_of_lives htoken)).2 hbound, c, hc,
    hfirst, hlast, ⟨0, [0xD800]⟩, ?_, by decide +kernel⟩
  rw [Graph.text, if_pos hreads, hnumber, hbound]
  rfl

end Graph

end DesignAtlas
