import DesignAtlas.Proofs.Coverage

/-!
# What the walk reaches, and where it turns back

The walk follows instances only, so the modules it meets lie below the
known tops; and since what is met is expanded somewhere, it meets all of
them.

An instance is marked recursive when its type stands above it. The way
down from there to the instance is then a cycle, so the type belongs to a
recursive group. Conversely every member of a group instantiates a member
of the same group. Going down inside the group cannot go on for ever, and
the only thing that ends it is a mark. So the marks of the walk and the
component search, which know nothing of each other, find the same
recursion.
-/

namespace DesignAtlas

namespace Design

variable {d : Design} {p q : Pending} {tops : List String} {tops? : Option (List String)}
variable {showUndeclared : Bool} {e : Entry} {g : List String} {v w : String}

/-! ## Below the tops -/

/-- **A module lies below the tops**: zero or more instantiations lead to
it from one of them that is known. -/
def BelowTops (d : Design) (tops : List String) (v : String) : Prop :=
  ∃ top ∈ tops, top ∈ d.keys ∧ d.Reaches top v

theorem BelowTops.mem_keys (h : d.BelowTops tops v) : v ∈ d.keys := by
  obtain ⟨top, -, hk, hreach⟩ := h
  exact hreach.mem_keys hk

theorem BelowTops.uses (h : d.BelowTops tops v) (hvw : d.Uses v w) : d.BelowTops tops w := by
  obtain ⟨top, htop, hk, hreach⟩ := h
  exact ⟨top, htop, hk, hreach.trans hvw.reaches⟩

/-- **How the walk comes to an item of a known type**: from a top, and
through the modules above it. -/
structure Descends (d : Design) (tops : List String) (p : Pending) : Prop where
  below : p.type ∈ d.keys → d.BelowTops tops p.type
  above : p.type ∈ d.keys → ∀ a ∈ p.ancestors, Relation.TransGen d.Uses a p.type

theorem descends_top (hv : v ∈ tops) : d.Descends tops (.top v) :=
  ⟨fun hk => ⟨v, hv, hk, Reaches.refl d v⟩, by simp [Pending.top]⟩

/-- A step goes along one edge of the graph, from the module that is
expanded. -/
theorem Descends.opened (h : d.Descends tops p) (hq : q ∈ (d.visit p).opened) :
    d.Descends tops q := by
  obtain ⟨r, hfate, hbelow⟩ := mem_opened_iff.1 hq
  obtain ⟨hr, -⟩ := expanded_iff.1 hfate
  obtain ⟨i, hi, rfl⟩ := List.mem_map.1 hbelow
  have hp : p.type ∈ d.keys := mem_keys_of_get? hr
  have hedge : i.type ∈ d.keys → d.Uses p.type i.type := fun hk =>
    ⟨r, hr, List.mem_map_of_mem hi, hk⟩
  refine ⟨fun hk => (h.below hp).uses (hedge hk), fun hk a ha => ?_⟩
  rcases List.mem_append.1 ha with ha | ha
  · exact Relation.TransGen.tail (h.above hp a ha) (hedge hk)
  · rw [List.mem_singleton.1 ha]
    exact Relation.TransGen.single (hedge hk)

/-- So every visited item is come to in this way. -/
theorem descends_of_mem_visits {x : Visit} (hx : x ∈ d.visits tops) : d.Descends tops x.item := by
  have htops : ∀ p ∈ tops.map Pending.top, d.Descends tops p := by
    intro p hp
    obtain ⟨name, hname, rfl⟩ := List.mem_map.1 hp
    exact descends_top hname
  exact ((d.run_visitsFrom _).forall_items (fun _ hp _ hq => hp.opened hq) htops).1 x hx

/-- **The modules expanded are those below the tops.** -/
theorem expandedBelow_iff : d.ExpandedBelow tops v ↔ d.BelowTops tops v := by
  constructor
  · rintro ⟨x, hx, rfl, r, hfate⟩
    have hk : x.item.type ∈ d.keys := mem_keys_of_get? (get?_of_expanded hx hfate).1
    exact (descends_of_mem_visits hx).below hk
  · rintro ⟨top, htop, hk, hreach⟩
    exact (expandedBelow_top htop hk).reaches hreach

/-! ## The entries -/

/-- An entry of a report is that of an item visited, known or shown on
request. -/
theorem mem_hierarchy_iff :
    e ∈ (d.hierarchy tops? showUndeclared).1 ↔
      ∃ x ∈ d.visits (tops?.getD d.tops),
        (x.item.type ∈ d.keys ∨ showUndeclared = true) ∧ e = d.entryOf x.item := by
  change e ∈ Visit.entries showUndeclared (d.visits _) ↔ _
  rw [Visit.mem_entries_iff]
  refine exists_congr fun x => and_congr_right fun hx => ?_
  have hvisit := visit_eq_of_mem_visits hx
  have hknown : (d.get? x.item.type).isSome = true ↔ x.item.type ∈ d.keys := by
    rw [← OrderedMap.contains_iff, OrderedMap.contains]
  rw [← hvisit, entryIf_visit, hvisit, Option.ite_none_right_eq_some, Bool.or_eq_true, hknown,
    Option.some_inj, eq_comm (a := e)]

/-- **The types that resolved entries show are the known modules below the
tops**, and each of them has an entry that is not marked recursive, below
which its instances are listed. -/
theorem resolved_types_eq_below_tops (d : Design) (tops? : Option (List String))
    (showUndeclared : Bool) :
    {v | ∃ e ∈ (d.hierarchy tops? showUndeclared).1, e.resolved = true ∧ e.type = v} =
        {v | d.BelowTops (tops?.getD d.tops) v} ∧
      ∀ v, d.BelowTops (tops?.getD d.tops) v →
        ∃ e ∈ (d.hierarchy tops? showUndeclared).1,
          e.resolved = true ∧ e.type = v ∧ e.recursive = false := by
  have hexpanded : ∀ v, d.BelowTops (tops?.getD d.tops) v →
      ∃ e ∈ (d.hierarchy tops? showUndeclared).1,
        e.resolved = true ∧ e.type = v ∧ e.recursive = false := by
    intro v hv
    obtain ⟨x, hx, rfl, r, hfate⟩ := expandedBelow_iff.2 hv
    have hk : x.item.type ∈ d.keys := hv.mem_keys
    have hrec : (d.entryOf x.item).recursive = false := by
      rw [Bool.eq_false_iff, Ne, recursive_entryOf]
      exact fun h => (get?_of_expanded hx hfate).2 h.2
    exact ⟨d.entryOf x.item, mem_hierarchy_iff.2 ⟨x, hx, Or.inl hk, rfl⟩,
      resolved_entryOf.2 hk, rfl, hrec⟩
  refine ⟨Set.ext fun v => ⟨?_, fun hv => ?_⟩, hexpanded⟩
  · rintro ⟨e, he, hresolved, rfl⟩
    obtain ⟨x, hx, -, rfl⟩ := mem_hierarchy_iff.1 he
    exact (descends_of_mem_visits hx).below (resolved_entryOf.1 hresolved)
  · obtain ⟨e, he, hresolved, htype, -⟩ := hexpanded v hv
    exact ⟨e, he, hresolved, htype⟩

/-! ## Marks and groups -/

/-- **A type that stands above its own instance lies on a cycle**: the way
down from the one to the other. -/
theorem onCycle_of_recursive {x : Visit} (hx : x ∈ d.visits tops)
    (hrec : (d.entryOf x.item).recursive = true) : d.OnCycle x.item.type := by
  obtain ⟨hk, hmem⟩ := recursive_entryOf.1 hrec
  exact (descends_of_mem_visits hx).above hk _ hmem

/-- Inside a group every member instantiates a member. -/
theorem exists_uses_in_cycle (hg : g ∈ d.cycles) (hv : v ∈ g) : ∃ w ∈ g, d.Uses v w := by
  have hcycle : d.OnCycle v := exists_mem_cycles_iff.1 ⟨g, hg, hv⟩
  obtain ⟨w, hvw, hwv⟩ := Relation.TransGen.head'_iff.1 hcycle
  exact ⟨w, (mem_cycle_iff hg hv).2 ⟨Uses.reaches hvw, hwv⟩, hvw⟩

/-- **The walk turns back in every group that it enters.** Of the members
that are expanded take one at the greatest depth. It instantiates a member
again, which is visited one level deeper, and so is not expanded. -/
theorem exists_recursive_of_expanded (hg : g ∈ d.cycles) (hv : v ∈ g)
    (hexpanded : d.ExpandedBelow tops v) :
    ∃ y ∈ d.visits tops, y.item.type ∈ g ∧ (d.entryOf y.item).recursive = true := by
  classical
  let inside : Finset Visit := (d.visits tops).toFinset.filter fun x =>
    x.item.type ∈ g ∧ ∃ r, x.fate = .expanded r
  have hmem : ∀ x, x ∈ inside ↔
      x ∈ d.visits tops ∧ x.item.type ∈ g ∧ ∃ r, x.fate = .expanded r := by simp [inside]
  obtain ⟨x₀, hx₀, rfl, hfate₀⟩ := hexpanded
  obtain ⟨x, hx, hdeepest⟩ := inside.exists_max_image (fun x => x.item.depth)
    ⟨x₀, (hmem x₀).2 ⟨hx₀, hv, hfate₀⟩⟩
  obtain ⟨hxvisit, hxg, r, hfate⟩ := (hmem x).1 hx
  obtain ⟨w, hw, huses⟩ := exists_uses_in_cycle hg hxg
  obtain ⟨y, hy, rfl, hdepth⟩ := exists_visit_below hxvisit hfate huses
  have hk : y.item.type ∈ d.keys := huses.target_mem
  refine ⟨y, hy, hw, recursive_entryOf.2 ⟨hk, ?_⟩⟩
  -- if it were not above itself it would be expanded, below the deepest
  by_contra hanc
  obtain ⟨r', hr'⟩ := OrderedMap.exists_get?_iff.2 hk
  have hyfate : y.fate = .expanded r' := visit_eq_of_mem_visits hy ▸ expanded_iff.2 ⟨hr', hanc⟩
  have hle := hdeepest y ((hmem y).2 ⟨hy, hw, r', hyfate⟩)
  omega

/-- **The marks of the walk and the recursive groups agree.** A type marked
recursive belongs to a group; every group with a member below the tops
has a member that is marked. So nothing is marked exactly when no group
lies below the tops. -/
theorem recursive_entries_match_cycles (d : Design) (tops? : Option (List String))
    (showUndeclared : Bool) :
    (∀ e ∈ (d.hierarchy tops? showUndeclared).1, e.recursive = true →
        ∃ g ∈ d.cycles, e.type ∈ g) ∧
      (∀ g ∈ d.cycles, (∃ v ∈ g, d.BelowTops (tops?.getD d.tops) v) →
        ∃ e ∈ (d.hierarchy tops? showUndeclared).1, e.recursive = true ∧ e.type ∈ g) ∧
      ((∀ e ∈ (d.hierarchy tops? showUndeclared).1, e.recursive = false) ↔
        ∀ g ∈ d.cycles, ∀ v ∈ g, ¬ d.BelowTops (tops?.getD d.tops) v) := by
  have hmark : ∀ e ∈ (d.hierarchy tops? showUndeclared).1, e.recursive = true →
      (∃ g ∈ d.cycles, e.type ∈ g) ∧ d.BelowTops (tops?.getD d.tops) e.type := by
    intro e he hrec
    obtain ⟨x, hx, -, rfl⟩ := mem_hierarchy_iff.1 he
    exact ⟨exists_mem_cycles_iff.2 (onCycle_of_recursive hx hrec),
      (descends_of_mem_visits hx).below (recursive_entryOf.1 hrec).1⟩
  have hgroup : ∀ g ∈ d.cycles, (∃ v ∈ g, d.BelowTops (tops?.getD d.tops) v) →
      ∃ e ∈ (d.hierarchy tops? showUndeclared).1, e.recursive = true ∧ e.type ∈ g := by
    rintro g hg ⟨v, hv, hbelow⟩
    obtain ⟨y, hy, hyg, hrec⟩ := exists_recursive_of_expanded hg hv (expandedBelow_iff.2 hbelow)
    have hk : y.item.type ∈ d.keys := (recursive_entryOf.1 hrec).1
    exact ⟨d.entryOf y.item, mem_hierarchy_iff.2 ⟨y, hy, Or.inl hk, rfl⟩, hrec, hyg⟩
  refine ⟨fun e he hrec => (hmark e he hrec).1, hgroup, fun hnone g hg v hv hbelow => ?_,
    fun hnone e he => ?_⟩
  · obtain ⟨e, he, hrec, -⟩ := hgroup g hg ⟨v, hv, hbelow⟩
    rw [hnone e he] at hrec
    exact Bool.false_ne_true hrec
  · by_contra hrec
    obtain ⟨⟨g, hg, hmem⟩, hbelow⟩ := hmark e he (Bool.eq_true_of_not_eq_false hrec)
    exact hnone g hg e.type hmem hbelow

end Design

end DesignAtlas
