import DesignAtlas.Proofs.Correspondence
import DesignAtlas.Proofs.Position
import DesignAtlas.Proofs.Span

/-!
# A declaration is read by itself

What a module declaration gives does not depend on where it stands. The
texts that are read out of it are parts of the source between its tokens, so
a declaration gives the same outcome in any two trees that hold it, as long
as their sources have the same bytes around its tokens.

`Vocabulary.declared` lists the outcomes of a tree with the positions of the
declarations they come from. The positions are those of all declarations
below the root, those inside others included, in document order, and the
records of the file are the records of these outcomes.
-/

namespace DesignAtlas

namespace Vocabulary

variable {v : Vocabulary} {path : String} {t : Tree} {p : List ℕ} {n : Node} {o : Outcome}
variable {lo hi : ℕ} {source source' : Source}

/-! ## One declaration over two sources -/

/-- Over two sources that agree around its tokens, a node and all below it
are read alike. -/
theorem readAlike_of_agreeOn (v : Vocabulary) (hagree : source.AgreeOn lo hi source') :
    ReadAlike v v source source' fun n m => m = n ∧ n.Within lo hi := by
  refine ⟨?_, List.forall₂_same.2 ?_⟩
  · rintro n m ⟨rfl, hwithin⟩
    exact Node.text_eq_of_within hagree hwithin
  · rintro ⟨name, f⟩ - n m ⟨rfl, hwithin⟩
    refine List.forall₂_same.2 fun k hk => ⟨rfl, hwithin.of_mem ?_⟩
    exact Node.mem_preorder_of_mem_descendants (Node.mem_descendants_of_mem_findAll hk)

/-! ## The declarations of a tree -/

/-- **A declaration stands at a position** below the root of a tree. -/
structure DeclaredAt (v : Vocabulary) (t : Tree) (p : List ℕ) (n : Node) : Prop where
  below : p ≠ []
  found : t.root.at? p = some n
  accepted : v.moduleDeclaration.acceptsNode n

/-- **The outcomes of a tree with the positions of their declarations.** -/
def declared (v : Vocabulary) (path : String) (t : Tree) : List (List ℕ × Outcome) :=
  (t.root.places v.moduleDeclaration).zip (v.outcomes path t)

/-- The outcomes of a tree, by the nodes with their positions. -/
theorem outcomes_eq (v : Vocabulary) (path : String) (t : Tree) :
    v.outcomes path t =
      ((Node.locatedFrom 0 t.root.children).filter fun x =>
        v.moduleDeclaration.acceptsNode x.2).map fun x => v.readDeclaration t.source path x.2 := by
  rw [outcomes, Node.findAll_none, Node.descendants_eq, List.filter_map, List.map_map]
  rfl

/-- The outcome of a position is that of the declaration there. -/
theorem declared_eq (v : Vocabulary) (path : String) (t : Tree) :
    v.declared path t =
      ((Node.locatedFrom 0 t.root.children).filter fun x =>
        v.moduleDeclaration.acceptsNode x.2).map
          fun x => (x.1, v.readDeclaration t.source path x.2) := by
  rw [declared, outcomes_eq, Node.places, List.zip_map']

theorem mem_declared_iff :
    (p, o) ∈ v.declared path t ↔
      ∃ n, v.DeclaredAt t p n ∧ o = v.readDeclaration t.source path n := by
  rw [declared_eq, List.mem_map]
  constructor
  · rintro ⟨⟨q, n⟩, hx, hpair⟩
    obtain ⟨rfl, rfl⟩ := Prod.mk.inj hpair
    obtain ⟨hx, haccepted⟩ := List.mem_filter.1 hx
    obtain ⟨hbelow, hfound⟩ := Node.mem_locatedFrom_children_iff.1 hx
    exact ⟨n, ⟨hbelow, hfound, haccepted⟩, rfl⟩
  · rintro ⟨n, hn, rfl⟩
    have hx := Node.mem_locatedFrom_children_iff.2 ⟨hn.below, hn.found⟩
    exact ⟨(p, n), List.mem_filter.2 ⟨hx, hn.accepted⟩, rfl⟩

theorem map_fst_declared (v : Vocabulary) (path : String) (t : Tree) :
    (v.declared path t).map Prod.fst = t.root.places v.moduleDeclaration := by
  rw [declared_eq, List.map_map, Node.places]
  rfl

theorem map_snd_declared (v : Vocabulary) (path : String) (t : Tree) :
    (v.declared path t).map Prod.snd = v.outcomes path t := by
  rw [declared_eq, List.map_map, outcomes_eq]
  rfl

/-- **Extraction is local to the declaration, and the records of a file are
those of its declarations.** A declaration that stands in two trees, anywhere
and among anything, gives the same outcome in both if their sources have the
same bytes around its tokens. And in every tree there is one outcome for each
declaration below the root, in document order, and the records are theirs. -/
theorem extraction_local (v : Vocabulary) (path : String) :
    (∀ (t t' : Tree) (p p' : List ℕ) (n : Node) (lo hi : ℕ),
      v.DeclaredAt t p n → v.DeclaredAt t' p' n → n.Within lo hi →
      t.source.AgreeOn lo hi t'.source →
      ∃ o, (p, o) ∈ v.declared path t ∧ (p', o) ∈ v.declared path t') ∧
    ∀ t : Tree,
      (∀ p, p ∈ (v.declared path t).map Prod.fst ↔ ∃ n, v.DeclaredAt t p n) ∧
      ((v.declared path t).map Prod.fst).Pairwise (· < ·) ∧
      (v.declared path t).map Prod.snd = v.outcomes path t ∧
      (v.extract path (some t)).1 = (v.declared path t).filterMap fun x => x.2.record? := by
  constructor
  · intro t t' p p' n lo hi hp hp' hwithin hagree
    have hread : v.readDeclaration t.source path n = v.readDeclaration t'.source path n :=
      (v.readAlike_of_agreeOn hagree).readDeclaration_eq path ⟨rfl, hwithin⟩
    exact ⟨_, mem_declared_iff.2 ⟨n, hp, rfl⟩, mem_declared_iff.2 ⟨n, hp', hread⟩⟩
  · intro t
    refine ⟨?_, ?_, map_snd_declared v path t, ?_⟩
    · intro p
      constructor
      · intro hp
        obtain ⟨⟨q, o⟩, hmem, rfl⟩ := List.mem_map.1 hp
        obtain ⟨n, hn, -⟩ := mem_declared_iff.1 hmem
        exact ⟨n, hn⟩
      · rintro ⟨n, hn⟩
        exact List.mem_map.2 ⟨(p, _), mem_declared_iff.2 ⟨n, hn, rfl⟩, rfl⟩
    · rw [map_fst_declared]
      exact t.root.places_pairwise _
    · rw [extract]
      simp only [Option.map_some, Option.getD_some, ← map_snd_declared v path t,
        List.filterMap_map]
      rfl

end Vocabulary

/-- A declaration whose name stands in the source only. -/
def Node.bareDeclaration : Node :=
  .branch "kModuleDeclaration" [
    .branch "kModuleHeader" [.token ⟨"SymbolIdentifier", 7, 8, none, by decide⟩]]

/-- A file with this declaration alone. -/
def Tree.aloneInFile : Tree := ⟨"root", [.bareDeclaration], .text "module m;"⟩

/-- A file with this declaration inside another one, over other bytes. -/
def Tree.nestedInFile : Tree :=
  ⟨"root", [.leaf, .branch "kModuleDeclaration" [.branch "kModuleHeader" [], .bareDeclaration]],
    .stored [0xFF, 0xFE, 0, 0, 0, 0, 0x28, 0x6D]⟩

namespace Vocabulary

theorem bare_declaration_read_alike :
    verible.DeclaredAt .aloneInFile [0] .bareDeclaration ∧
    verible.DeclaredAt .nestedInFile [1, 1] .bareDeclaration ∧
    Node.bareDeclaration.Within 7 8 ∧
    Tree.aloneInFile.source.AgreeOn 7 8 Tree.nestedInFile.source ∧
    ([0], .found ⟨"m.sv", "m", [], [], [], []⟩) ∈ verible.declared "m.sv" .aloneInFile ∧
    ([1, 1], .found ⟨"m.sv", "m", [], [], [], []⟩) ∈ verible.declared "m.sv" .nestedInFile := by
  have halone : verible.DeclaredAt .aloneInFile [0] .bareDeclaration := ⟨by decide, rfl, by decide⟩
  have hnested : verible.DeclaredAt .nestedInFile [1, 1] .bareDeclaration :=
    ⟨by decide, rfl, by decide⟩
  have hwithin : Node.bareDeclaration.Within 7 8 := by
    unfold Node.Within
    decide +kernel
  have hagree : Tree.aloneInFile.source.AgreeOn 7 8 Tree.nestedInFile.source := by
    unfold Source.AgreeOn
    decide +kernel
  obtain ⟨o, ho, ho'⟩ :=
    (extraction_local verible "m.sv").1 _ _ _ _ _ 7 8 halone hnested hwithin hagree
  have hdeclared : verible.declared "m.sv" .aloneInFile =
      [([0], .found ⟨"m.sv", "m", [], [], [], []⟩)] := by
    decide +kernel
  have ho₀ := ho
  rw [hdeclared, List.mem_singleton] at ho₀
  obtain rfl := (Prod.mk.inj ho₀).2
  exact ⟨halone, hnested, hwithin, hagree, ho, ho'⟩

end Vocabulary

end DesignAtlas
