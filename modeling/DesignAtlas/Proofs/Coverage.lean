import DesignAtlas.Proofs.Cycles
import DesignAtlas.Proofs.Walk
import Mathlib.Data.Finset.Max

/-!
# What the default report leaves out

The walk expands every module that it comes to, at the first place on each
branch: a type that is not expanded again is being expanded above. So the
modules shown are closed under instantiation. A module that is not shown
is no top, hence instantiated by another that is not shown either, and
going up in this way leads into a cycle.

A module is its own parent where the name of its record is its own name.
A record may stand under another name, and a module that instantiates
itself through such a record is no top either; this is the one case in
which the cycle may be a single module.
-/

namespace DesignAtlas

namespace Design

variable {d : Design} {p q : Pending} {frontier : List Pending} {tops : List String}
variable {u v w : String}

/-! ## Every module that is met is expanded -/

theorem visit_mem_visitsFrom (hp : p ∈ frontier) : d.visit p ∈ d.visitsFrom frontier := by
  fun_induction visitsFrom d frontier with
  | case1 => simp at hp
  | case2 first frontier ih =>
    rcases List.mem_cons.1 hp with rfl | hp
    · exact List.mem_cons_self
    · exact List.mem_cons_of_mem _ (ih (List.mem_append_right _ hp))

/-- What a visit opens is visited. -/
theorem visit_mem_of_opened {x : Visit} (hx : x ∈ d.visitsFrom frontier) (hq : q ∈ x.opened) :
    d.visit q ∈ d.visitsFrom frontier := by
  fun_induction visitsFrom d frontier with
  | case1 => simp at hx
  | case2 first frontier ih =>
    refine List.mem_cons_of_mem _ ?_
    rcases List.mem_cons.1 hx with rfl | hx
    · exact visit_mem_visitsFrom (List.mem_append_left _ hq)
    · exact ih hx

/-- **What stands above a visited item is expanded**, unless it stood
above the frontier from the start. -/
theorem ancestor_expanded {x : Visit} (hx : x ∈ d.visitsFrom frontier) (hv : v ∈ x.item.ancestors) :
    (∃ p ∈ frontier, v ∈ p.ancestors) ∨
      ∃ y ∈ d.visitsFrom frontier, y.item.type = v ∧ ∃ r, y.fate = .expanded r := by
  fun_induction visitsFrom d frontier with
  | case1 => simp at hx
  | case2 first frontier ih =>
    rcases List.mem_cons.1 hx with rfl | hx
    · rw [visit_item] at hv
      exact Or.inl ⟨first, List.mem_cons_self, hv⟩
    · rcases ih hx with ⟨q, hq, hvq⟩ | ⟨y, hy, hyv⟩
      · rcases List.mem_append.1 hq with hq | hq
        · -- the item was opened by `first`, which is then expanded
          obtain ⟨r, hfate, hbelow⟩ := mem_opened_iff.1 hq
          obtain ⟨i, -, rfl⟩ := List.mem_map.1 hbelow
          rcases List.mem_append.1 hvq with hvq | hvq
          · exact Or.inl ⟨first, List.mem_cons_self, hvq⟩
          · refine Or.inr ⟨_, List.mem_cons_self, ?_, r, hfate⟩
            rw [visit_item, List.mem_singleton.1 hvq]
        · exact Or.inl ⟨q, List.mem_cons_of_mem _ hq, hvq⟩
      · exact Or.inr ⟨y, List.mem_cons_of_mem _ hy, hyv⟩

/-- Somewhere below the tops the module is expanded. -/
def ExpandedBelow (d : Design) (tops : List String) (v : String) : Prop :=
  ∃ x ∈ d.visits tops, x.item.type = v ∧ ∃ r, x.fate = .expanded r

/-- **A known module that is visited is expanded**, there or above. -/
theorem expandedBelow_of_visit {x : Visit} (hx : x ∈ d.visits tops) (hk : x.item.type ∈ d.keys) :
    d.ExpandedBelow tops x.item.type := by
  have hvisit := visit_eq_of_mem_visits hx
  rcases visit_cases d x.item with ⟨hr, -⟩ | ⟨r, -, hmem, -⟩ | ⟨r, hr, hp, -⟩
  · exact absurd hk (OrderedMap.get?_eq_none_iff.1 hr)
  · rcases ancestor_expanded hx hmem with ⟨p, hp, hanc⟩ | hexpanded
    · obtain ⟨name, -, rfl⟩ := List.mem_map.1 hp
      simp [Pending.top] at hanc
    · exact hexpanded
  · exact ⟨x, hx, rfl, r, hvisit ▸ expanded_iff.2 ⟨hr, hp⟩⟩

theorem expandedBelow_top (hv : v ∈ tops) (hk : v ∈ d.keys) : d.ExpandedBelow tops v := by
  have hmem : d.visit (.top v) ∈ d.visits tops := visit_mem_visitsFrom (List.mem_map_of_mem hv)
  have htype : (d.visit (.top v)).item.type = v := by rw [visit_item]; rfl
  exact htype ▸ expandedBelow_of_visit hmem (htype.symm ▸ hk)

/-- **What an expanded module instantiates is visited one level below
it.** -/
theorem exists_visit_below {x : Visit} {r : ModuleRecord} (hx : x ∈ d.visits tops)
    (hfate : x.fate = .expanded r) (hvw : d.Uses x.item.type w) :
    ∃ y ∈ d.visits tops, y.item.type = w ∧ y.item.depth = x.item.depth + 1 := by
  obtain ⟨r', hr', hmem, -⟩ := hvw
  have hvisit := visit_eq_of_mem_visits hx
  obtain ⟨hr, -⟩ := get?_of_expanded hx hfate
  obtain rfl : r = r' := Option.some.inj (hr.symm.trans hr')
  obtain ⟨i, hi, rfl⟩ := List.mem_map.1 hmem
  let q : Pending := ⟨some i.name, i.type, x.item.depth + 1, some r.name,
    x.item.ancestors ++ [x.item.type]⟩
  have hq : q ∈ x.opened := by
    rw [← hvisit]
    exact mem_opened_iff.2 ⟨r, hvisit.symm ▸ hfate, List.mem_map.2 ⟨i, hi, rfl⟩⟩
  have hitem : (d.visit q).item = q := visit_item d q
  exact ⟨d.visit q, visit_mem_of_opened hx hq, by rw [hitem], by rw [hitem]⟩

/-- **What an expanded module instantiates is expanded too.** -/
theorem ExpandedBelow.uses (h : d.ExpandedBelow tops v) (hvw : d.Uses v w) :
    d.ExpandedBelow tops w := by
  obtain ⟨x, hx, rfl, r, hfate⟩ := h
  obtain ⟨y, hy, rfl, -⟩ := exists_visit_below hx hfate hvw
  exact expandedBelow_of_visit hy hvw.target_mem

theorem ExpandedBelow.reaches (h : d.ExpandedBelow tops v) (hvw : d.Reaches v w) :
    d.ExpandedBelow tops w :=
  hvw.mem_of_closed (S := d.ExpandedBelow tops) (fun _ ha _ hab => ha.uses hab) h

/-- **The types shown without the undeclared ones are those expanded.** -/
theorem exists_entry_iff :
    (∃ e ∈ (d.hierarchy (some tops) false).1, e.type = v) ↔ d.ExpandedBelow tops v := by
  constructor
  · rintro ⟨e, he, rfl⟩
    obtain ⟨x, hx, hentry⟩ := Visit.mem_entries_iff.1 he
    have hvisit := visit_eq_of_mem_visits hx
    rw [(Visit.type_depth_of_entryIf hentry).1]
    refine expandedBelow_of_visit hx ?_
    rcases visit_cases d x.item with ⟨-, hv⟩ | ⟨r, hr, -, -⟩ | ⟨r, hr, -, -⟩
    · rw [← hvisit, hv] at hentry
      simp [Visit.entryIf] at hentry
    · exact mem_keys_of_get? hr
    · exact mem_keys_of_get? hr
  · rintro ⟨x, hx, rfl, r, hfate⟩
    obtain ⟨e, he⟩ : ∃ e, x.entryIf false = some e := by
      rw [Visit.entryIf, hfate]
      exact ⟨_, rfl⟩
    exact ⟨e, Visit.mem_entries_iff.2 ⟨x, hx, he⟩, (Visit.type_depth_of_entryIf he).1⟩

/-! ## Modules that are not shown -/

/-- The default report shows the module. -/
def Shown (d : Design) (v : String) : Prop :=
  ∃ e ∈ (d.hierarchy none false).1, e.type = v

theorem shown_iff : d.Shown v ↔ d.ExpandedBelow d.tops v := exists_entry_iff

/-- What is not shown is used by no module that is. -/
theorem not_shown_of_reaches (h : ¬ d.Shown w) (hvw : d.Reaches v w) : ¬ d.Shown v :=
  fun hv => h (shown_iff.2 ((shown_iff.1 hv).reaches hvw))

/-- **A known module is a top when no record of another name instantiates
it.** -/
theorem mem_tops_iff :
    v ∈ d.tops ↔ v ∈ d.keys ∧
      ∀ u r, d.get? u = some r → r.name ≠ v → v ∉ r.instanceTypes := by
  have hparent : (d.values.any fun r => r.instances.any fun i => i.type == v && i.type != r.name) =
      true ↔ ∃ u r, d.get? u = some r ∧ r.name ≠ v ∧ v ∈ r.instanceTypes := by
    rw [List.any_eq_true]
    constructor
    · rintro ⟨r, hr, hinst⟩
      obtain ⟨⟨u, r'⟩, hmem, rfl⟩ := List.mem_map.1 hr
      obtain ⟨i, hi, htype⟩ := List.any_eq_true.1 hinst
      rw [Bool.and_eq_true, beq_iff_eq, bne_iff_ne] at htype
      obtain ⟨rfl, hname⟩ := htype
      exact ⟨u, r', OrderedMap.get?_eq_some_iff.2 hmem, hname.symm, List.mem_map_of_mem hi⟩
    · rintro ⟨u, r, hget, hname, hmem⟩
      obtain ⟨i, hi, rfl⟩ := List.mem_map.1 hmem
      refine ⟨r, List.mem_map.2 ⟨(u, r), OrderedMap.get?_eq_some_iff.1 hget, rfl⟩,
        List.any_eq_true.2 ⟨i, hi, ?_⟩⟩
      rw [Bool.and_eq_true, beq_iff_eq, bne_iff_ne]
      exact ⟨rfl, hname.symm⟩
  rw [tops, List.mem_filter, Bool.not_eq_true', ← Bool.not_eq_true, hparent]
  simp only [not_exists, not_and]

/-- The tops of a design are those of its names that are tops, in order. -/
theorem tops_eq_filter (d : Design) : d.tops = d.keys.filter (· ∈ d.tops) := by
  conv_lhs => rw [tops]
  refine List.filter_congr fun v hv => ?_
  rw [Bool.eq_iff_iff, decide_eq_true_iff, tops, List.mem_filter]
  exact (and_iff_right hv).symm

/-- A module that is no top has a parent: a module that instantiates it
and whose record has another name. -/
theorem exists_parent_of_not_top (hv : v ∈ d.keys) (htop : v ∉ d.tops) :
    ∃ u r, d.get? u = some r ∧ d.Uses u v ∧ r.name ≠ v := by
  by_contra hnone
  refine htop (mem_tops_iff.2 ⟨hv, fun u r hget hname hmem => hnone ?_⟩)
  exact ⟨u, r, hget, ⟨r, hget, hmem, hv⟩, hname⟩

theorem exists_hidden_parent (hv : v ∈ d.keys) (hhidden : ¬ d.Shown v) :
    ∃ u r, d.get? u = some r ∧ d.Uses u v ∧ r.name ≠ v ∧ ¬ d.Shown u := by
  have htop : v ∉ d.tops := fun htop => hhidden (shown_iff.2 (expandedBelow_top htop hv))
  obtain ⟨u, r, hget, huv, hname⟩ := exists_parent_of_not_top hv htop
  exact ⟨u, r, hget, huv, hname, not_shown_of_reaches hhidden huv.reaches⟩

/-- **Going up from a hidden module leads into a cycle.** Among the hidden
modules that reach it, take one that reaches the most modules. Its parent
reaches no more, so it is reached in turn. -/
theorem exists_hidden_cycle (hv : v ∈ d.keys) (hhidden : ¬ d.Shown v) :
    ∃ w u r, d.Reaches w v ∧ ¬ d.Shown w ∧ d.Together w u ∧ d.get? u = some r ∧ d.Uses u w ∧
      r.name ≠ w := by
  classical
  let below : String → Finset String := fun x => d.keys.toFinset.filter (d.Reaches x)
  let above : Finset String := d.keys.toFinset.filter fun x => d.Reaches x v ∧ ¬ d.Shown x
  have hmem : ∀ x, x ∈ above ↔ x ∈ d.keys ∧ d.Reaches x v ∧ ¬ d.Shown x := by simp [above]
  have hbelow : ∀ x y, y ∈ below x ↔ y ∈ d.keys ∧ d.Reaches x y := by simp [below]
  obtain ⟨w, hw, hmax⟩ := above.exists_max_image (fun x => (below x).card)
    ⟨v, (hmem v).2 ⟨hv, Reaches.refl d v, hhidden⟩⟩
  obtain ⟨hwk, hwv, hwhidden⟩ := (hmem w).1 hw
  obtain ⟨u, r, hget, huw, hname, huhidden⟩ := exists_hidden_parent hwk hwhidden
  have huk : u ∈ d.keys := mem_keys_of_get? hget
  have hu : u ∈ above := (hmem u).2 ⟨huk, huw.reaches.trans hwv, huhidden⟩
  -- the parent reaches what `w` reaches, and no hidden module above reaches more than `w`
  have hsub : below w ⊆ below u := by
    intro y hy
    obtain ⟨hyk, hwy⟩ := (hbelow w y).1 hy
    exact (hbelow u y).2 ⟨hyk, huw.reaches.trans hwy⟩
  have heq : below w = below u := Finset.eq_of_subset_of_card_le hsub (hmax u hu)
  have hwu : u ∈ below w := heq ▸ (hbelow u u).2 ⟨huk, Reaches.refl d u⟩
  exact ⟨w, u, r, hwv, hwhidden, ⟨((hbelow w u).1 hwu).2, huw.reaches⟩, hget, huw, hname⟩

/-- A group of two or more, or a single module whose record stands under
a name that is not its own. -/
def LargeOrForeign (d : Design) (g : List String) : Prop :=
  2 ≤ g.length ∨ ∃ v r, g = [v] ∧ d.get? v = some r ∧ r.name ≠ v

/-- **A group explains why a module is not shown**: a member leads to the
module, and no member is shown either. -/
def Explains (d : Design) (g : List String) (v : String) : Prop :=
  (∃ w ∈ g, d.Reaches w v) ∧ ∀ w ∈ g, ¬ d.Shown w

/-- A group with two different members is large. -/
theorem two_le_length {g : List String} (hv : v ∈ g) (hw : w ∈ g) (hne : v ≠ w) :
    2 ≤ g.length := by
  rcases g with - | ⟨a, - | ⟨b, g⟩⟩
  · simp at hv
  · rw [List.mem_singleton] at hv hw
    exact absurd (hv.trans hw.symm) hne
  · simp

/-- **The group behind a hidden module.** -/
theorem exists_hidden_group (hv : v ∈ d.keys) (hhidden : ¬ d.Shown v) :
    ∃ g ∈ d.cycles, d.LargeOrForeign g ∧ d.Explains g v := by
  obtain ⟨w, u, r, hwv, hwhidden, hwu, hget, huw, hname⟩ := exists_hidden_cycle hv hhidden
  have hcycle : d.OnCycle w := Relation.TransGen.tail' hwu.1 huw
  obtain ⟨g, hg, hwg⟩ := exists_mem_cycles_iff.2 hcycle
  refine ⟨g, hg, ?_, ⟨w, hwg, hwv⟩, fun x hx => ?_⟩
  · have hug : u ∈ g := (mem_cycle_iff hg hwg).2 hwu
    by_cases hne : w = u
    · -- the module is its own parent, so its record has another name
      subst hne
      rcases g with - | ⟨a, - | ⟨b, g⟩⟩
      · simp at hwg
      · rw [List.mem_singleton] at hwg
        exact Or.inr ⟨a, r, rfl, hwg ▸ hget, hwg ▸ hname⟩
      · exact Or.inl (by simp)
    · exact Or.inl (two_le_length hwg hug hne)
  · exact not_shown_of_reaches hwhidden ((mem_cycle_iff hg hwg).1 hx).2

/-! ## Records under their own names -/

/-- Every record stands under its own name. -/
def Named (d : Design) : Prop := ∀ v r, d.get? v = some r → r.name = v

theorem named_empty : Named .empty := by
  intro v r hr
  simp [OrderedMap.get?, OrderedMap.empty] at hr

/-- A record is put under its own name. -/
theorem Named.put (h : d.Named) (r : ModuleRecord) : (d.put r).1.Named := by
  intro v r' hr'
  rw [Design.put, OrderedMap.get?_insert] at hr'
  split at hr'
  · rename_i hv
    rw [← Option.some.inj hr', hv]
  · exact h v r' hr'

theorem Named.foldl_put (rs : List ModuleRecord) (noted : List Event) (h : d.Named) :
    (rs.foldl (fun (d, noted) r => let (d, more) := Design.put d r; (d, noted ++ more))
      (d, noted)).1.Named := by
  induction rs generalizing d noted with
  | nil => exact h
  | cons r rs ih => exact ih _ (h.put r)

/-- **A design made of records holds each under its own name.** -/
theorem named_ofRecords (rs : List ModuleRecord) : (ofRecords rs).1.Named :=
  named_empty.foldl_put rs []

theorem Named.two_le_length (h : d.Named) {g : List String} (hg : d.LargeOrForeign g) :
    2 ≤ g.length := by
  rcases hg with hg | ⟨v, r, -, hget, hname⟩
  · exact hg
  · exact absurd (h v r hget) hname

/-- **What the default report leaves out lies below a group that it leaves
out as a whole.** The group has two members or more, or is a single module
whose record stands under a foreign name, and without such a group every
module is shown. Where all records stand under their own names the group
has two members or more. -/
theorem hidden_modules_explained (d : Design) :
    (∀ m ∈ d.keys, ¬ d.Shown m → ∃ g ∈ d.cycles, d.LargeOrForeign g ∧ d.Explains g m) ∧
      ((∀ g ∈ d.cycles, ¬ d.LargeOrForeign g) → ∀ m ∈ d.keys, d.Shown m) ∧
      (d.Named →
        (∀ m ∈ d.keys, ¬ d.Shown m → ∃ g ∈ d.cycles, 2 ≤ g.length ∧ d.Explains g m) ∧
        ((¬ ∃ g ∈ d.cycles, 2 ≤ g.length) → ∀ m ∈ d.keys, d.Shown m)) := by
  have hgeneral : (∀ g ∈ d.cycles, ¬ d.LargeOrForeign g) → ∀ m ∈ d.keys, d.Shown m := by
    intro hnone m hm
    by_contra hhidden
    obtain ⟨g, hg, hlarge, -⟩ := exists_hidden_group hm hhidden
    exact hnone g hg hlarge
  refine ⟨fun m hm => exists_hidden_group hm, hgeneral, fun hnamed => ⟨fun m hm hhidden => ?_, ?_⟩⟩
  · obtain ⟨g, hg, hlarge, hexplains⟩ := exists_hidden_group hm hhidden
    exact ⟨g, hg, hnamed.two_le_length hlarge, hexplains⟩
  · exact fun hnone => hgeneral fun g hg hlarge => hnone ⟨g, hg, hnamed.two_le_length hlarge⟩

theorem not_shown_of_tops_eq_nil (h : d.tops = []) : ¬ d.Shown v := by
  rw [shown_iff, h]
  rintro ⟨x, hx, -⟩
  rw [visits, List.map_nil, visitsFrom] at hx
  exact absurd hx List.not_mem_nil

/-- Two modules that instantiate each other, and a third below them. -/
def ring : Design :=
  (ofRecords [⟨"ring.sv", "A", [], [], [], [⟨"u_b", "B"⟩]⟩,
    ⟨"ring.sv", "B", [], [], [], [⟨"u_a", "A"⟩, ⟨"u_c", "C"⟩]⟩,
    ⟨"ring.sv", "C", [], [], [], []⟩]).1

/-- The third module is hidden behind the other two. -/
theorem ring_hides_leaf :
    "C" ∈ ring.keys ∧ ¬ ring.Shown "C" ∧
      ∃ g ∈ ring.cycles, 2 ≤ g.length ∧ ring.Explains g "C" := by
  have hkey : "C" ∈ ring.keys := by decide
  have hhidden : ¬ ring.Shown "C" := not_shown_of_tops_eq_nil (by decide)
  obtain ⟨-, -, hnamed⟩ := hidden_modules_explained ring
  exact ⟨hkey, hhidden, (hnamed (named_ofRecords _)).1 "C" hkey hhidden⟩

/-- A module that instantiates itself, with a record of another name. -/
def aliasedLoop : Design :=
  .ofList [("a", ⟨"d.sv", "x", [], [], [], [⟨"u", "a"⟩]⟩)]

/-- **A large group is not always behind a hidden module.** -/
theorem aliasedLoop_hidden_without_large_group :
    "a" ∈ aliasedLoop.keys ∧ ¬ aliasedLoop.Shown "a" ∧
      ¬ ∃ g ∈ aliasedLoop.cycles, 2 ≤ g.length := by
  refine ⟨by decide, not_shown_of_tops_eq_nil (by decide), ?_⟩
  rintro ⟨g, hg, hlarge⟩
  have hle : g.length ≤ aliasedLoop.size :=
    length_le_size (nodup_of_mem_cycles hg) fun v hv => mem_keys_of_mem_cycles hg hv
  have hone : aliasedLoop.size = 1 := by decide
  omega

end Design

end DesignAtlas
