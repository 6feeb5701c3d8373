import DesignAtlas.Module.Extraction
import DesignAtlas.Proofs.Search
import Mathlib.Data.List.Forall2

/-!
# Nodes that are read alike

Reading modules looks at two things only: which nodes the searches of the
vocabulary find, and the text of some of them. So two nodes give the same
modules when their searches find corresponding nodes in the same order, and
corresponding nodes have the same text. `Vocabulary.ReadAlike` states this of
any correspondence between nodes, with a vocabulary and a source on either
side, and `ReadAlike.readDeclaration_eq` and `ReadAlike.extract_eq` draw the
conclusion.

Where a tree is changed without changing what is read out of it, it is left
to name the correspondence and to follow it through a search and through
the text of a node.
-/

namespace DesignAtlas

/-! ## Lists that correspond -/

section Lists

variable {α β γ : Type} {R : α → β → Prop} {xs : List α} {ys : List β}

theorem map_eq_of_forall₂ {f : α → γ} {g : β → γ} (h : List.Forall₂ R xs ys)
    (hfg : ∀ a b, R a b → f a = g b) : xs.map f = ys.map g := by
  induction h with
  | nil => rfl
  | cons hab _ ih => rw [List.map_cons, List.map_cons, hfg _ _ hab, ih]

theorem filterMap_eq_of_forall₂ {f : α → Option γ} {g : β → Option γ} (h : List.Forall₂ R xs ys)
    (hfg : ∀ a b, R a b → f a = g b) : xs.filterMap f = ys.filterMap g := by
  induction h with
  | nil => rfl
  | cons hab _ ih => rw [List.filterMap_cons, List.filterMap_cons, hfg _ _ hab, ih]

end Lists

/-- The first match of a search is the first of all its matches. -/
theorem Node.find?_eq_head? (n : Node) (f : TagFilter) :
    n.find? f = (n.findAll f none).head? := by
  rw [find?_eq, findAll_none, List.head?_filter]

namespace Vocabulary

variable {R : Node → Node → Prop} {f g : TagFilter} {n m : Node}

/-! ## Searches -/

/-- **Two filters find alike**: in corresponding nodes they find
corresponding nodes, in the same order. -/
def FindAlike (R : Node → Node → Prop) (f g : TagFilter) : Prop :=
  ∀ n m, R n m → List.Forall₂ R (n.findAll f none) (m.findAll g none)

/-- The first matches correspond, or there is none on either side. -/
theorem FindAlike.find?_cases (h : FindAlike R f g) (hnm : R n m) :
    (n.find? f = none ∧ m.find? g = none) ∨
      ∃ a b, n.find? f = some a ∧ m.find? g = some b ∧ R a b := by
  have hfound := h n m hnm
  rw [Node.find?_eq_head?, Node.find?_eq_head?]
  generalize n.findAll f none = as, m.findAll g none = bs at hfound
  cases hfound with
  | nil => exact Or.inl ⟨rfl, rfl⟩
  | cons hab _ => exact Or.inr ⟨_, _, rfl, rfl, hab⟩

/-! ## Reading -/

variable {v w : Vocabulary} {source source' : Source}

/-- **Corresponding nodes are read alike**, one with a vocabulary over a
source and the other with another vocabulary over another source: they have
the same text, and the filters that stand for each other find alike. -/
structure ReadAlike (v w : Vocabulary) (source source' : Source) (R : Node → Node → Prop) :
    Prop where
  text : ∀ n m, R n m → n.text source = m.text source'
  found : List.Forall₂ (fun x y => FindAlike R x.2 y.2) v.filters w.filters

namespace ReadAlike

/-- The searches, filter by filter. -/
theorem searches (h : ReadAlike v w source source' R) :
    FindAlike R v.moduleDeclaration w.moduleDeclaration ∧
    FindAlike R v.moduleHeader w.moduleHeader ∧
    FindAlike R v.port w.port ∧ FindAlike R v.parameter w.parameter ∧
    FindAlike R v.packageImport w.packageImport ∧
    FindAlike R v.instanceName w.instanceName ∧
    FindAlike R v.instantiationType w.instantiationType ∧
    FindAlike R v.identifier w.identifier := by
  simpa [filters] using h.found

theorem firstIdentifier?_eq (h : ReadAlike v w source source' R) (hnm : R n m) :
    v.firstIdentifier? source n = w.firstIdentifier? source' m := by
  obtain ⟨-, -, -, -, -, -, -, hidentifier⟩ := h.searches
  rw [firstIdentifier?, firstIdentifier?]
  rcases hidentifier.find?_cases hnm with ⟨hn, hm⟩ | ⟨a, b, hn, hm, hab⟩
  · rw [hn, hm]
    rfl
  · rw [hn, hm, Option.map_some, Option.map_some, h.text a b hab]

theorem identifiers_eq (h : ReadAlike v w source source' R) (hfg : FindAlike R f g)
    (hnm : R n m) : v.identifiers source n f = w.identifiers source' m g :=
  filterMap_eq_of_forall₂ (hfg n m hnm) fun _ _ hab => h.firstIdentifier?_eq hab

/-- **Corresponding declarations give the same outcome.** -/
theorem readDeclaration_eq (h : ReadAlike v w source source' R) (path : String) (hnm : R n m) :
    v.readDeclaration source path n = w.readDeclaration source' path m := by
  obtain ⟨-, hheader, hport, hparameter, himport, hname, htype, -⟩ := h.searches
  have himports : (n.findAll v.packageImport none).map (Node.text source) =
      (m.findAll w.packageImport none).map (Node.text source') :=
    map_eq_of_forall₂ (himport n m hnm) h.text
  rw [readDeclaration, readDeclaration]
  rcases hheader.find?_cases hnm with ⟨hn, hm⟩ | ⟨a, b, hn, hm, hab⟩
  · rw [hn, hm]
  · rw [hn, hm]
    simp only [h.firstIdentifier?_eq hab, h.identifiers_eq hport hab,
      h.identifiers_eq hparameter hab, himports, h.identifiers_eq hname hnm,
      h.identifiers_eq htype hnm]

/-- **Trees with corresponding roots give the same modules**, and the same
is noted of them. -/
theorem extract_eq {t t' : Tree} (h : ReadAlike v w t.source t'.source R) (path : String)
    (hroot : R t.root t'.root) : v.extract path (some t) = w.extract path (some t') := by
  obtain ⟨hdeclaration, -⟩ := h.searches
  have houtcomes : v.outcomes path t = w.outcomes path t' :=
    map_eq_of_forall₂ (hdeclaration _ _ hroot) fun _ _ hab => h.readDeclaration_eq path hab
  simp only [extract, Option.map_some, houtcomes]

end ReadAlike

end Vocabulary

end DesignAtlas
