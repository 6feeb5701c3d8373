import DesignAtlas.Proofs.ComponentSearch
import Mathlib.Data.List.Nodup

/-!
# Recursive groups are the cyclic components

The groups are the components that the search closes, without the single
modules that do not instantiate themselves. So each cyclic component is
listed once, and what a module instantiates outside the design has no
part in it.
-/

namespace DesignAtlas

namespace Design

variable {d : Design} {v : String} {c g : List String} {s : Finset String}

/-! ## The components as lists -/

theorem nodup_of_mem_components (hc : c ∈ d.components) : c.Nodup :=
  (List.nodup_flatten.1 d.nodup_components_flatten).1 c hc

theorem components_disjoint (d : Design) : d.components.Pairwise List.Disjoint :=
  (List.nodup_flatten.1 d.nodup_components_flatten).2

/-- Every component of the graph is listed. -/
theorem IsComponent.exists_mem_components (hs : d.IsComponent s) :
    ∃ c ∈ d.components, c.toFinset = s := by
  obtain ⟨v, hv⟩ := hs.nonempty
  obtain ⟨c, hc, hvc⟩ := List.mem_flatten.1 (mem_components_flatten.2 (hs.mem_keys hv))
  exact ⟨c, hc, (isComponent_of_mem hc).eq_of_mem hs (List.mem_toFinset.2 hvc) hv⟩

/-! ## The groups -/

/-- The test for a group is the one for a cyclic component. -/
theorem isGroup_iff (hc : c.Nodup) : d.isGroup c = true ↔ d.IsCyclic c.toFinset := by
  rw [isGroup, Bool.or_eq_true, decide_eq_true_iff, List.any_eq_true, IsCyclic,
    List.toFinset_card_of_nodup hc]
  simp only [usesItself_iff, List.mem_toFinset]

theorem mem_cycles_iff : g ∈ d.cycles ↔ g ∈ d.components ∧ d.IsCyclic g.toFinset := by
  rw [cycles, List.mem_filter]
  exact and_congr_right fun hg => isGroup_iff (nodup_of_mem_components hg)

theorem isComponent_of_mem_cycles (hg : g ∈ d.cycles) : d.IsComponent g.toFinset :=
  isComponent_of_mem (mem_cycles_iff.1 hg).1

theorem nodup_of_mem_cycles (hg : g ∈ d.cycles) : g.Nodup :=
  nodup_of_mem_components (mem_cycles_iff.1 hg).1

theorem mem_keys_of_mem_cycles (hg : g ∈ d.cycles) (hv : v ∈ g) : v ∈ d.keys :=
  (isComponent_of_mem_cycles hg).mem_keys (List.mem_toFinset.2 hv)

/-- A group is the class of each of its members. -/
theorem mem_cycle_iff {w : String} (hg : g ∈ d.cycles) (hv : v ∈ g) :
    w ∈ g ↔ d.Together v w := by
  rw [← List.mem_toFinset]
  exact (isComponent_of_mem_cycles hg).mem_iff (List.mem_toFinset.2 hv)

theorem cycles_disjoint (d : Design) : d.cycles.Pairwise List.Disjoint :=
  d.components_disjoint.sublist List.filter_sublist

/-- **The groups, as sets, are the cyclic components.** -/
theorem mem_map_cycles_iff :
    s ∈ d.cycles.map List.toFinset ↔ d.IsComponent s ∧ d.IsCyclic s := by
  rw [List.mem_map]
  constructor
  · rintro ⟨g, hg, rfl⟩
    exact ⟨isComponent_of_mem_cycles hg, (mem_cycles_iff.1 hg).2⟩
  · rintro ⟨hs, hcyclic⟩
    obtain ⟨c, hc, rfl⟩ := hs.exists_mem_components
    exact ⟨c, mem_cycles_iff.2 ⟨hc, hcyclic⟩, rfl⟩

/-- As sets they are pairwise different: a group has a member, and no
other group has it. -/
theorem nodup_map_cycles (d : Design) : (d.cycles.map List.toFinset).Nodup := by
  rw [List.Nodup, List.pairwise_map]
  refine d.cycles_disjoint.imp_of_mem fun {g g'} hg _ hdisj heq => ?_
  obtain ⟨v, hv⟩ := (isComponent_of_mem_cycles hg).nonempty
  exact hdisj (List.mem_toFinset.1 hv) (List.mem_toFinset.1 (heq ▸ hv))

/-- **The modules in groups are the modules on cycles.** -/
theorem exists_mem_cycles_iff : (∃ g ∈ d.cycles, v ∈ g) ↔ d.OnCycle v := by
  constructor
  · rintro ⟨g, hg, hv⟩
    exact ((isComponent_of_mem_cycles hg).isCyclic_iff (List.mem_toFinset.2 hv)).1
      (mem_cycles_iff.1 hg).2
  · intro hcycle
    obtain ⟨w, hvw, -⟩ := Relation.TransGen.head'_iff.1 hcycle
    obtain ⟨c, hc, hvc⟩ := List.mem_flatten.1 (mem_components_flatten.2 (Uses.source_mem hvw))
    have hcyclic := ((isComponent_of_mem hc).isCyclic_iff (List.mem_toFinset.2 hvc)).2 hcycle
    exact ⟨c, mem_cycles_iff.2 ⟨hc, hcyclic⟩, hvc⟩

/-! ## Dangling types -/

/-- The designs have the same modules in the same order, and each module
has the same instances of known types in both. -/
def EqUpToDangling (d d' : Design) : Prop :=
  d'.keys = d.keys ∧ ∀ v r r', d.get? v = some r → d'.get? v = some r' →
    r'.instanceTypes.filter (· ∈ d.keys) = r.instanceTypes.filter (· ∈ d.keys)

theorem uses_eq_filter {r : ModuleRecord} (hr : d.get? v = some r) :
    d.uses v = r.instanceTypes.filter (· ∈ d.keys) := by
  rw [uses, hr]
  refine List.filter_congr fun w _ => ?_
  rw [Bool.eq_iff_iff, OrderedMap.contains_iff, decide_eq_true_iff]

variable {d' : Design}

theorem EqUpToDangling.uses_eq (h : d.EqUpToDangling d') : d'.uses = d.uses := by
  funext v
  by_cases hv : v ∈ d.keys
  · obtain ⟨r, hr⟩ := OrderedMap.exists_get?_iff.2 hv
    obtain ⟨r', hr'⟩ := OrderedMap.exists_get?_iff.2 (h.1.symm ▸ hv)
    rw [uses_eq_filter hr, uses_eq_filter hr', h.1]
    exact h.2 v r r' hr hr'
  · have hnone : d.get? v = none := OrderedMap.get?_eq_none_iff.2 hv
    have hnone' : d'.get? v = none := OrderedMap.get?_eq_none_iff.2 (h.1.symm ▸ hv)
    rw [uses, uses, hnone, hnone']
    rfl

/-- **Instances of unknown types have no influence on the groups.** -/
theorem EqUpToDangling.cycles_eq (h : d.EqUpToDangling d') : d'.cycles = d.cycles := by
  have hsize : d'.size = d.size := by
    have := congrArg List.length h.1
    rwa [OrderedMap.keys, OrderedMap.keys, List.length_map, List.length_map] at this
  have hcomponents : d'.components = d.components := by
    simp only [components, searchAll, h.1, h.uses_eq, hsize]
  have hgroup : d'.isGroup = d.isGroup := by
    funext c
    have hself : ∀ v, d'.usesItself v = d.usesItself v := fun v => by
      rw [Bool.eq_iff_iff, usesItself_iff, usesItself_iff, ← mem_uses, ← mem_uses, h.uses_eq]
    rw [isGroup, isGroup, funext hself]
  rw [cycles, cycles, hcomponents, hgroup]

/-- **The recursive groups are exactly the cyclic components of the
instantiation graph.** Each is listed once, without repeating a member;
no two share one; a module is in a group exactly when it lies on a cycle.
Every member is a known module, and designs that differ in instances of
unknown types only have the same groups. -/
theorem cycles_exactly_cyclic_components (d : Design) :
    (∀ s : Finset String, s ∈ d.cycles.map List.toFinset ↔ d.IsComponent s ∧ d.IsCyclic s) ∧
      (d.cycles.map List.toFinset).Nodup ∧
      (∀ g ∈ d.cycles, g.Nodup) ∧
      d.cycles.Pairwise List.Disjoint ∧
      (∀ v, (∃ g ∈ d.cycles, v ∈ g) ↔ d.OnCycle v) ∧
      (∀ g ∈ d.cycles, ∀ v ∈ g, v ∈ d.keys) ∧
      ∀ d' : Design, d.EqUpToDangling d' → d'.cycles = d.cycles :=
  ⟨fun _ => mem_map_cycles_iff, d.nodup_map_cycles, fun _ => nodup_of_mem_cycles,
    d.cycles_disjoint, fun _ => exists_mem_cycles_iff, fun _ hg _ => mem_keys_of_mem_cycles hg,
    fun _ h => h.cycles_eq⟩

end Design

end DesignAtlas
