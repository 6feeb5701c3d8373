import DesignAtlas.Design.Cycles
import DesignAtlas.Design.Walk
import DesignAtlas.Proofs.OrderedMap
import Mathlib.Data.Finset.Card
import Mathlib.Data.Finset.Dedup
import Mathlib.Logic.Relation

/-!
# The instantiation graph

The modules of a design are the vertices, and there is an edge from a
module to every known type that its record instantiates. A component is
the class of the modules that reach a given one and are reached from it.
Everything here is stated on the records alone, without the search that
finds the components or the walk that visits the modules.
-/

namespace DesignAtlas

namespace Design

variable {d : Design} {u v w : String}

/-! ## Edges and reachability -/

/-- **An edge of the graph**: the record under `v` has an instance of the
known module `w`. -/
def Uses (d : Design) (v w : String) : Prop :=
  ∃ r, d.get? v = some r ∧ w ∈ r.instanceTypes ∧ w ∈ d.keys

/-- The list of the modules used holds the edges, and nothing else. -/
theorem mem_uses : w ∈ d.uses v ↔ d.Uses v w := by
  rw [uses, List.mem_filter, OrderedMap.contains_iff]
  constructor
  · rintro ⟨hw, hk⟩
    rcases hr : d.get? v with - | r
    · rw [hr] at hw
      simp at hw
    · rw [hr] at hw
      exact ⟨r, hr, hw, hk⟩
  · rintro ⟨r, hr, hw, hk⟩
    rw [hr]
    exact ⟨hw, hk⟩

theorem Uses.source_mem (h : d.Uses v w) : v ∈ d.keys := by
  obtain ⟨r, hr, -, -⟩ := h
  exact mem_keys_of_get? hr

theorem Uses.target_mem (h : d.Uses v w) : w ∈ d.keys := by
  obtain ⟨r, -, -, hk⟩ := h
  exact hk

/-- A module instantiates itself exactly when the graph has a loop there. -/
theorem usesItself_iff : d.usesItself v = true ↔ d.Uses v v := by
  rw [usesItself, Option.any_eq_true]
  constructor
  · rintro ⟨r, hr, hself⟩
    obtain ⟨i, hi, htype⟩ := List.any_eq_true.1 hself
    exact ⟨r, hr, List.mem_map.2 ⟨i, hi, beq_iff_eq.1 htype⟩, mem_keys_of_get? hr⟩
  · rintro ⟨r, hr, hmem, -⟩
    obtain ⟨i, hi, htype⟩ := List.mem_map.1 hmem
    exact ⟨r, hr, List.any_eq_true.2 ⟨i, hi, beq_iff_eq.2 htype⟩⟩

/-- Reachability by zero or more edges. -/
def Reaches (d : Design) : String → String → Prop :=
  Relation.ReflTransGen d.Uses

theorem Reaches.refl (d : Design) (v : String) : d.Reaches v v :=
  Relation.ReflTransGen.refl

theorem Reaches.trans (h : d.Reaches u v) (h' : d.Reaches v w) : d.Reaches u w :=
  Relation.ReflTransGen.trans h h'

theorem Uses.reaches (h : d.Uses v w) : d.Reaches v w :=
  Relation.ReflTransGen.single h

/-- From a known module only known ones are reached. -/
theorem Reaches.mem_keys (h : d.Reaches v w) (hv : v ∈ d.keys) : w ∈ d.keys := by
  induction h with
  | refl => exact hv
  | tail _ hedge _ => exact hedge.target_mem

/-- A set that no edge leaves is left by no path. -/
theorem Reaches.mem_of_closed {S : String → Prop} (h : d.Reaches v w)
    (hclosed : ∀ a, S a → ∀ b, d.Uses a b → S b) (hv : S v) : S w := by
  induction h with
  | refl => exact hv
  | tail _ hedge ih => exact hclosed _ ih _ hedge

/-! ## Components -/

/-- Two modules lie in one component when each reaches the other. -/
def Together (d : Design) (v w : String) : Prop := d.Reaches v w ∧ d.Reaches w v

theorem Together.refl (d : Design) (v : String) : d.Together v v :=
  ⟨Reaches.refl d v, Reaches.refl d v⟩

theorem Together.symm (h : d.Together v w) : d.Together w v := ⟨h.2, h.1⟩

theorem Together.trans (h : d.Together u v) (h' : d.Together v w) : d.Together u w :=
  ⟨h.1.trans h'.1, h'.2.trans h.2⟩

/-- **A strongly connected component**: the modules together with a known
one. -/
def IsComponent (d : Design) (s : Finset String) : Prop :=
  ∃ v ∈ d.keys, ∀ w, w ∈ s ↔ d.Together v w

/-- A component is the class of each of its members. -/
theorem IsComponent.mem_iff {s : Finset String} (h : d.IsComponent s) (hv : v ∈ s) :
    w ∈ s ↔ d.Together v w := by
  obtain ⟨root, -, hroot⟩ := h
  have hrv := (hroot v).1 hv
  rw [hroot]
  exact ⟨fun hw => hrv.symm.trans hw, fun hw => hrv.trans hw⟩

theorem IsComponent.mem_keys {s : Finset String} (h : d.IsComponent s) (hv : v ∈ s) :
    v ∈ d.keys := by
  obtain ⟨root, hroot, hmem⟩ := h
  exact ((hmem v).1 hv).1.mem_keys hroot

theorem IsComponent.nonempty {s : Finset String} (h : d.IsComponent s) : s.Nonempty := by
  obtain ⟨root, -, hmem⟩ := h
  exact ⟨root, (hmem root).2 (Together.refl d root)⟩

/-- Components that share a member are equal. -/
theorem IsComponent.eq_of_mem {s t : Finset String} (hs : d.IsComponent s) (ht : d.IsComponent t)
    (hvs : v ∈ s) (hvt : v ∈ t) : s = t := by
  ext w
  rw [hs.mem_iff hvs, ht.mem_iff hvt]

/-- A component is cyclic when it has two members, or one that
instantiates itself. -/
def IsCyclic (d : Design) (s : Finset String) : Prop :=
  2 ≤ s.card ∨ ∃ v ∈ s, d.Uses v v

/-- A module lies on a cycle when one or more edges lead from it back to
itself. -/
def OnCycle (d : Design) (v : String) : Prop :=
  Relation.TransGen d.Uses v v

/-- Where a path leads out of a module and back to it, the module lies on
a cycle. -/
theorem onCycle_of_together (h : d.Together v w) (hne : v ≠ w) : d.OnCycle v := by
  rcases Relation.ReflTransGen.cases_head h.1 with rfl | ⟨c, hvc, hcw⟩
  · exact absurd rfl hne
  · exact Relation.TransGen.head' hvc (Relation.ReflTransGen.trans hcw h.2)

/-- **The cyclic components are those of the modules on a cycle.** -/
theorem IsComponent.isCyclic_iff {s : Finset String} (h : d.IsComponent s) (hv : v ∈ s) :
    d.IsCyclic s ↔ d.OnCycle v := by
  constructor
  · rintro (hcard | ⟨w, hw, hself⟩)
    · obtain ⟨w, hw, hne⟩ := Finset.exists_mem_ne hcard v
      exact onCycle_of_together ((h.mem_iff hv).1 hw) hne.symm
    · have hvw := (h.mem_iff hv).1 hw
      exact Relation.TransGen.trans_right hvw.1 (Relation.TransGen.head' hself hvw.2)
  · intro hcycle
    obtain ⟨w, hvw, hwv⟩ := Relation.TransGen.head'_iff.1 hcycle
    by_cases hne : w = v
    · exact Or.inr ⟨v, hv, hne ▸ hvw⟩
    · have hw : w ∈ s := (h.mem_iff hv).2 ⟨Uses.reaches hvw, hwv⟩
      exact Or.inl (Finset.one_lt_card.2 ⟨w, hw, v, hv, hne⟩)

end Design

end DesignAtlas
