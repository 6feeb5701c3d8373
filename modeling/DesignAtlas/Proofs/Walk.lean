import DesignAtlas.Proofs.Instantiation
import Mathlib.Data.List.Flatten
import Mathlib.Data.List.Perm.Subperm

/-!
# The walk, by recursion and step by step

The walk keeps one frontier for the instances of all levels. `walk` says
what the entries below one instance are without a frontier, by recursion
on the modules not yet above it; the entries of a frontier are those of
its items, one after the other.

A `Run` is the loop itself, one visit at a time. The items of every
frontier it reaches are `Placed`: above them stand distinct known modules,
as many as the depth. So no item is deeper than the design is large.
-/

namespace DesignAtlas

namespace Visit

variable {showUndeclared : Bool} {v : Visit} {vs : List Visit} {e : Entry}

/-- A visit puts its entry, if it has one, before those that follow. -/
theorem entries_cons :
    entries showUndeclared (v :: vs) =
      (v.entryIf showUndeclared).toList ++ entries showUndeclared vs := by
  rw [entries, List.filterMap_cons]
  cases v.entryIf showUndeclared <;> rfl

theorem mem_entries_iff :
    e ∈ entries showUndeclared vs ↔ ∃ v ∈ vs, v.entryIf showUndeclared = some e :=
  List.mem_filterMap

/-- An entry stands where its item stood. -/
theorem type_depth_of_entryIf (h : v.entryIf showUndeclared = some e) :
    e.type = v.item.type ∧ e.depth = v.item.depth := by
  obtain ⟨p, fate⟩ := v
  cases fate with
  | undeclared =>
    cases showUndeclared with
    | false => simp [entryIf] at h
    | true => exact Option.some.inj h ▸ ⟨rfl, rfl⟩
  | recursive r => exact Option.some.inj h ▸ ⟨rfl, rfl⟩
  | expanded r => exact Option.some.inj h ▸ ⟨rfl, rfl⟩

/-- **The entries that are resolved and not recursive are the expanded
ones.** -/
theorem expanded_iff_of_entryIf (h : v.entryIf showUndeclared = some e) :
    (∃ r, v.fate = .expanded r) ↔ e.resolved = true ∧ e.recursive = false := by
  obtain ⟨p, fate⟩ := v
  cases fate with
  | undeclared =>
    cases showUndeclared with
    | false => simp [entryIf] at h
    | true =>
      obtain rfl := Option.some.inj h
      simp [Entry.resolved]
  | recursive r =>
    obtain rfl := Option.some.inj h
    simp
  | expanded r =>
    obtain rfl := Option.some.inj h
    simp [Entry.resolved]

end Visit

namespace Design

variable {d : Design} {p q : Pending} {frontier last : List Pending} {vs : List Visit}
variable {showUndeclared : Bool}

/-! ## One visit -/

/-- **What a visit can be**: the type has no record, or it is one of the
modules above, or its instances are opened. -/
theorem visit_cases (d : Design) (p : Pending) :
    (d.get? p.type = none ∧ d.visit p = ⟨p, .undeclared⟩) ∨
      (∃ r, d.get? p.type = some r ∧ p.type ∈ p.ancestors ∧ d.visit p = ⟨p, .recursive r⟩) ∨
      ∃ r, d.get? p.type = some r ∧ p.type ∉ p.ancestors ∧ d.visit p = ⟨p, .expanded r⟩ := by
  rw [visit]
  rcases hr : d.get? p.type with - | r
  · exact Or.inl ⟨rfl, rfl⟩
  · by_cases hp : p.type ∈ p.ancestors
    · exact Or.inr (Or.inl ⟨r, rfl, hp, if_pos hp⟩)
    · exact Or.inr (Or.inr ⟨r, rfl, hp, if_neg hp⟩)

theorem visit_item (d : Design) (p : Pending) : (d.visit p).item = p := by
  rcases visit_cases d p with ⟨-, h⟩ | ⟨r, -, -, h⟩ | ⟨r, -, -, h⟩ <;> rw [h]

/-- **The modules expanded are the known ones that are not above
themselves.** -/
theorem expanded_iff {r : ModuleRecord} :
    (d.visit p).fate = .expanded r ↔ d.get? p.type = some r ∧ p.type ∉ p.ancestors := by
  rcases visit_cases d p with ⟨hr, hv⟩ | ⟨r', hr, hp, hv⟩ | ⟨r', hr, hp, hv⟩
  · simp [hv, hr]
  · simp [hv, hp]
  · simp [hv, hr, hp]

/-- What is opened are the instances of an expanded module. -/
theorem mem_opened_iff :
    q ∈ (d.visit p).opened ↔ ∃ r, (d.visit p).fate = .expanded r ∧ q ∈ p.below r := by
  rcases visit_cases d p with ⟨-, hv⟩ | ⟨r, -, -, hv⟩ | ⟨r, -, -, hv⟩ <;>
    simp [hv, Visit.opened]

/-- The line of a report for an item. -/
def entryOf (d : Design) (p : Pending) : Entry where
  record? := d.get? p.type
  type := p.type
  depth := p.depth
  instance? := p.instance?
  parent? := p.parent?
  recursive := (d.get? p.type).isSome && decide (p.type ∈ p.ancestors)

/-- **The entry of a visit**, read off its item alone. Only a type without
a record may have none. -/
theorem entryIf_visit (d : Design) (showUndeclared : Bool) (p : Pending) :
    (d.visit p).entryIf showUndeclared =
      if (d.get? p.type).isSome || showUndeclared then some (d.entryOf p) else none := by
  rcases visit_cases d p with ⟨hr, hv⟩ | ⟨r, hr, hp, hv⟩ | ⟨r, hr, hp, hv⟩
  · simp [hv, hr, Visit.entryIf, entryOf]
  · simp [hv, hr, hp, Visit.entryIf, entryOf]
  · simp [hv, hr, hp, Visit.entryIf, entryOf]

theorem resolved_entryOf : (d.entryOf p).resolved = true ↔ p.type ∈ d.keys := by
  rw [← OrderedMap.contains_iff]
  rfl

theorem recursive_entryOf :
    (d.entryOf p).recursive = true ↔ p.type ∈ d.keys ∧ p.type ∈ p.ancestors := by
  rw [← OrderedMap.contains_iff, entryOf, Bool.and_eq_true, decide_eq_true_iff]
  rfl

/-! ## The recursive walk -/

/-- **The entries below one instance.** A type without a record has one
only on request; a type that is being expanded above has one, marked
recursive; any other is followed by the entries of its own instances. -/
def walk (d : Design) (showUndeclared : Bool) (instance? : Option String) (type : String)
    (depth : ℕ) (parent? : Option String) (ancestors : List String) : List Entry :=
  match _hr : d.get? type with
  | none => if showUndeclared then [⟨none, type, depth, instance?, parent?, false⟩] else []
  | some r =>
    if _ha : type ∈ ancestors then [⟨some r, type, depth, instance?, parent?, true⟩]
    else
      ⟨some r, type, depth, instance?, parent?, false⟩ ::
        r.instances.flatMap fun i =>
          d.walk showUndeclared (some i.name) i.type (depth + 1) (some r.name) (ancestors ++ [type])
termination_by d.unseen ancestors
decreasing_by exact unseen_lt (mem_keys_of_get? _hr) _ha

section Equations

variable {instance? parent? : Option String} {type : String} {depth : ℕ} {ancestors : List String}
variable {r : ModuleRecord}

theorem walk_of_none (hr : d.get? type = none) :
    d.walk showUndeclared instance? type depth parent? ancestors =
      if showUndeclared then [⟨none, type, depth, instance?, parent?, false⟩] else [] := by
  rw [walk]
  split
  · rfl
  · rename_i r hr'
    simp [hr] at hr'

theorem walk_of_mem (hr : d.get? type = some r) (ha : type ∈ ancestors) :
    d.walk showUndeclared instance? type depth parent? ancestors =
      [⟨some r, type, depth, instance?, parent?, true⟩] := by
  rw [walk]
  split
  · rename_i hr'
    simp [hr] at hr'
  · rename_i r' hr'
    obtain rfl : r = r' := Option.some.inj (hr.symm.trans hr')
    rw [dif_pos ha]

theorem walk_of_not_mem (hr : d.get? type = some r) (ha : type ∉ ancestors) :
    d.walk showUndeclared instance? type depth parent? ancestors =
      ⟨some r, type, depth, instance?, parent?, false⟩ ::
        r.instances.flatMap fun i =>
          d.walk showUndeclared (some i.name) i.type (depth + 1) (some r.name)
            (ancestors ++ [type]) := by
  rw [walk]
  split
  · rename_i hr'
    simp [hr] at hr'
  · rename_i r' hr'
    obtain rfl : r = r' := Option.some.inj (hr.symm.trans hr')
    rw [dif_neg ha]

end Equations

/-- The entries below a pending item. -/
def walkItem (d : Design) (showUndeclared : Bool) (p : Pending) : List Entry :=
  d.walk showUndeclared p.instance? p.type p.depth p.parent? p.ancestors

/-- **The walk of an item is its own entry, and the walks of what its
visit opens.** -/
theorem walkItem_eq (d : Design) (showUndeclared : Bool) (p : Pending) :
    d.walkItem showUndeclared p =
      ((d.visit p).entryIf showUndeclared).toList ++
        (d.visit p).opened.flatMap (d.walkItem showUndeclared) := by
  rcases visit_cases d p with ⟨hr, h⟩ | ⟨r, hr, hp, h⟩ | ⟨r, hr, hp, h⟩
  · rw [h, walkItem, walk_of_none hr]
    cases showUndeclared <;> rfl
  · rw [h, walkItem, walk_of_mem hr hp]
    rfl
  · rw [h, walkItem, walk_of_not_mem hr hp]
    simp only [Visit.entryIf, Visit.opened, Pending.below, Option.toList_some, List.flatMap_map]
    rfl

/-- **The entries of a frontier are the walks of its items.** The
induction is along the loop: what a visit opens stands in front of the
items that were waiting, so its walks come first. -/
theorem entries_visitsFrom (d : Design) (showUndeclared : Bool) (frontier : List Pending) :
    Visit.entries showUndeclared (d.visitsFrom frontier) =
      frontier.flatMap (d.walkItem showUndeclared) := by
  fun_induction visitsFrom d frontier with
  | case1 => rfl
  | case2 p frontier ih =>
    rw [Visit.entries_cons, ih, List.flatMap_append, List.flatMap_cons, walkItem_eq,
      List.append_assoc]

/-- **The hierarchy is the recursive walk**: the entries below the tops,
one top after the other, known or unknown, as often as it is given. -/
theorem hierarchy_eq_flatMap_walk (d : Design) (tops? : Option (List String))
    (showUndeclared : Bool) :
    (d.hierarchy tops? showUndeclared).1 =
      (tops?.getD d.tops).flatMap fun top => d.walk showUndeclared none top 0 none [] := by
  change Visit.entries showUndeclared (d.visitsFrom _) = _
  rw [entries_visitsFrom, List.flatMap_map]
  rfl

/-! ## Runs of the loop -/

/-- **The loop, some steps of it.** Each step takes the first item of the
frontier, and puts what its visit opens in front of the others. -/
inductive Run (d : Design) : List Pending → List Visit → List Pending → Prop
  /-- No step. -/
  | nil (frontier : List Pending) : Run d frontier [] frontier
  /-- A step, and those after it. -/
  | cons {p : Pending} {frontier last : List Pending} {vs : List Visit} :
      Run d ((d.visit p).opened ++ frontier) vs last →
      Run d (p :: frontier) (d.visit p :: vs) last

/-- The loop comes to an end, from any frontier. -/
theorem run_visitsFrom (d : Design) (frontier : List Pending) :
    d.Run frontier (d.visitsFrom frontier) [] := by
  fun_induction visitsFrom d frontier with
  | case1 => exact Run.nil []
  | case2 p frontier ih => exact Run.cons ih

/-- Whatever has been visited, the walk goes on with what is left. -/
theorem Run.visitsFrom_eq (h : d.Run frontier vs last) :
    d.visitsFrom frontier = vs ++ d.visitsFrom last := by
  induction h with
  | nil => rfl
  | cons _ ih => rw [visitsFrom, ih, List.cons_append]

/-- **What every visit hands on to the items it opens, a run keeps**, for
the items visited and those left. -/
theorem Run.forall_items {P : Pending → Prop} (h : d.Run frontier vs last)
    (hstep : ∀ p, P p → ∀ q ∈ (d.visit p).opened, P q) (hfrontier : ∀ p ∈ frontier, P p) :
    (∀ v ∈ vs, P v.item) ∧ ∀ p ∈ last, P p := by
  induction h with
  | nil => exact ⟨by simp, hfrontier⟩
  | @cons p frontier last vs _ ih =>
    have hp : P p := hfrontier p List.mem_cons_self
    obtain ⟨hvs, hlast⟩ := ih fun q hq => by
      rcases List.mem_append.1 hq with hq | hq
      · exact hstep p hp q hq
      · exact hfrontier q (List.mem_cons_of_mem _ hq)
    refine ⟨fun v hv => ?_, hlast⟩
    rcases List.mem_cons.1 hv with rfl | hv
    · rwa [visit_item]
    · exact hvs v hv

/-- **The place of an item in the tree**: above it stand distinct known
modules, as many as its depth. -/
structure Placed (d : Design) (p : Pending) : Prop where
  nodup : p.ancestors.Nodup
  known : ∀ name ∈ p.ancestors, name ∈ d.keys
  length : p.ancestors.length = p.depth

theorem placed_top (d : Design) (name : String) : d.Placed (.top name) :=
  ⟨List.nodup_nil, by simp [Pending.top], rfl⟩

/-- **A step keeps the items in place.** Only a known module that is not
yet above is expanded, so adding it to the path repeats no name. -/
theorem Placed.opened (h : d.Placed p) (hq : q ∈ (d.visit p).opened) : d.Placed q := by
  obtain ⟨r, hfate, hbelow⟩ := mem_opened_iff.1 hq
  obtain ⟨hr, hp⟩ := expanded_iff.1 hfate
  obtain ⟨i, -, rfl⟩ := List.mem_map.1 hbelow
  refine ⟨?_, fun name hname => ?_, ?_⟩
  · rw [List.nodup_append]
    refine ⟨h.nodup, List.nodup_singleton _, fun a ha b hb e => hp ?_⟩
    rwa [← List.mem_singleton.1 hb, ← e]
  · rcases List.mem_append.1 hname with hname | hname
    · exact h.known name hname
    · rw [List.mem_singleton.1 hname]
      exact mem_keys_of_get? hr
  · rw [List.length_append, h.length, List.length_singleton]

/-- **So a whole run does**, for the items visited and those left. -/
theorem Run.placed (h : d.Run frontier vs last) (hplaced : ∀ p ∈ frontier, d.Placed p) :
    (∀ v ∈ vs, d.Placed v.item) ∧ ∀ p ∈ last, d.Placed p :=
  h.forall_items (fun _ hp _ hq => hp.opened hq) hplaced

theorem placed_tops (d : Design) (tops : List String) :
    ∀ p ∈ tops.map Pending.top, d.Placed p := by
  intro p hp
  obtain ⟨name, -, rfl⟩ := List.mem_map.1 hp
  exact d.placed_top name

/-- Distinct known names are no more than the modules. -/
theorem length_le_size {names : List String} (hnodup : names.Nodup)
    (hknown : ∀ name ∈ names, name ∈ d.keys) : names.length ≤ d.size := by
  have hle := (hnodup.subperm hknown).length_le
  rwa [OrderedMap.keys, List.length_map] at hle

theorem Placed.depth_le (h : d.Placed p) : p.depth ≤ d.size :=
  h.length ▸ length_le_size h.nodup h.known

/-- An item that is expanded leaves room for one more module below it. -/
theorem Placed.depth_lt (h : d.Placed p) (hk : p.type ∈ d.keys) (hp : p.type ∉ p.ancestors) :
    p.depth < d.size := by
  have hle : (p.type :: p.ancestors).length ≤ d.size :=
    length_le_size (List.nodup_cons.2 ⟨hp, h.nodup⟩) fun name hname => by
      rcases List.mem_cons.1 hname with rfl | hname
      · exact hk
      · exact h.known name hname
  rw [List.length_cons, h.length] at hle
  omega

theorem Run.visit_item_eq (h : d.Run frontier vs last) : ∀ v ∈ vs, d.visit v.item = v := by
  induction h with
  | nil => simp
  | @cons p frontier last vs _ ih =>
    intro v hv
    rcases List.mem_cons.1 hv with rfl | hv
    · rw [visit_item]
    · exact ih v hv

theorem visit_eq_of_mem_visits {tops : List String} {x : Visit} (hx : x ∈ d.visits tops) :
    d.visit x.item = x :=
  (d.run_visitsFrom _).visit_item_eq x hx

/-- Only a known module that is not above itself is expanded. -/
theorem get?_of_expanded {tops : List String} {x : Visit} {r : ModuleRecord}
    (hx : x ∈ d.visits tops) (hfate : x.fate = .expanded r) :
    d.get? x.item.type = some r ∧ x.item.type ∉ x.item.ancestors := by
  rw [← visit_eq_of_mem_visits hx] at hfate
  exact expanded_iff.1 hfate

/-- **The walk ends, and goes no deeper than there are modules.** The loop
runs until its frontier is empty, and no run is longer. Every item of a
frontier that it reaches has distinct known modules above it, as many as
its depth. An entry is no deeper than the number of modules, and less deep
if its own instances are visited. -/
theorem walk_ends_within_size (d : Design) (tops : List String) :
    d.Run (tops.map .top) (d.visits tops) [] ∧
      (∀ vs frontier, d.Run (tops.map .top) vs frontier →
        vs <+: d.visits tops ∧ ∀ p ∈ frontier, d.Placed p) ∧
      ∀ showUndeclared, ∀ e ∈ (d.hierarchy (some tops) showUndeclared).1,
        e.depth ≤ d.size ∧ (e.resolved = true → e.recursive = false → e.depth < d.size) := by
  have hrun : d.Run (tops.map .top) (d.visits tops) [] := d.run_visitsFrom _
  refine ⟨hrun, fun vs frontier h => ⟨?_, (h.placed (d.placed_tops tops)).2⟩, ?_⟩
  · rw [visits, h.visitsFrom_eq]
    exact List.prefix_append _ _
  · intro showUndeclared e he
    obtain ⟨v, hv, hentry⟩ := Visit.mem_entries_iff.1 he
    have hplaced : d.Placed v.item := (hrun.placed (d.placed_tops tops)).1 v hv
    obtain ⟨-, hdepth⟩ := Visit.type_depth_of_entryIf hentry
    rw [hdepth]
    refine ⟨Int.ofNat_le.2 hplaced.depth_le, fun hresolved hrecursive => ?_⟩
    obtain ⟨r, hr⟩ := (Visit.expanded_iff_of_entryIf hentry).2 ⟨hresolved, hrecursive⟩
    rw [← hrun.visit_item_eq v hv] at hr
    obtain ⟨hget, hnot⟩ := expanded_iff.1 hr
    exact Int.ofNat_lt.2 (hplaced.depth_lt (mem_keys_of_get? hget) hnot)

end Design

end DesignAtlas
