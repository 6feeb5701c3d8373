import DesignAtlas.Proofs.Accumulation
import DesignAtlas.Proofs.Coverage

/-!
# The order of the records

Two designs have the same modules (`Design.SameModules`) when every name has
the same record in both, in whatever order the names stand. The walk looks
records up and never asks for the order, so it is the same in both, visit by
visit. The graph is the same, hence so are its components, although the search
meets them in another order and numbers their members otherwise. Only lists of
names keep the order in which a design holds them.

Records with different names give the same modules in every order
(`sameModules_of_perm`).
-/

namespace DesignAtlas

/-- Maps whose pairs differ in order only have the same look-ups. -/
theorem OrderedMap.get?_eq_of_perm {κ ν : Type} [DecidableEq κ] {m m' : OrderedMap κ ν}
    (h : m.entries.Perm m'.entries) (key : κ) : m'.get? key = m.get? key := by
  refine Option.ext fun value => ?_
  rw [get?_eq_some_iff, get?_eq_some_iff, h.mem_iff]

namespace Design

variable {d d' : Design} {v w : String}

/-- **Every name has the same record in both designs**, or none in both. -/
def SameModules (d d' : Design) : Prop := ∀ name, d'.get? name = d.get? name

namespace SameModules

theorem mem_keys_iff (h : d.SameModules d') : v ∈ d'.keys ↔ v ∈ d.keys := by
  rw [← OrderedMap.exists_get?_iff, ← OrderedMap.exists_get?_iff, h]

/-! ## The walk -/

theorem visit_eq (h : d.SameModules d') (p : Pending) : d'.visit p = d.visit p := by
  rw [visit, visit, h]

/-- The loop is the same, one visit after the other. -/
theorem visitsFrom_eq (h : d.SameModules d') (frontier : List Pending) :
    d'.visitsFrom frontier = d.visitsFrom frontier := by
  fun_induction visitsFrom d frontier with
  | case1 => rw [visitsFrom]
  | case2 p frontier ih => rw [visitsFrom, h.visit_eq, ih]

/-- **Below given tops the hierarchy is the same**, with all that is noted. -/
theorem hierarchy_eq (h : d.SameModules d') (tops : List String) (showUndeclared : Bool) :
    d'.hierarchy (some tops) showUndeclared = d.hierarchy (some tops) showUndeclared := by
  simp only [hierarchy, visits, Option.getD_some, h.visitsFrom_eq]

/-! ## The top modules -/

theorem mem_tops_iff (h : d.SameModules d') : v ∈ d'.tops ↔ v ∈ d.tops := by
  rw [Design.mem_tops_iff, Design.mem_tops_iff, h.mem_keys_iff]
  simp only [h _]

/-- **The top modules are the same**, in the order of the other design. -/
theorem tops_eq (h : d.SameModules d') : d'.tops = d'.keys.filter (· ∈ d.tops) := by
  rw [tops_eq_filter]
  exact List.filter_congr fun name _ => decide_eq_decide.2 h.mem_tops_iff

/-! ## The graph -/

theorem uses_iff (h : d.SameModules d') : d'.Uses v w ↔ d.Uses v w := by
  simp only [Uses, h v, h.mem_keys_iff]

theorem reaches_iff (h : d.SameModules d') : d'.Reaches v w ↔ d.Reaches v w := by
  have huses : d'.Uses = d.Uses := funext₂ fun _ _ => propext h.uses_iff
  rw [Reaches, Reaches, huses]

theorem isComponent_iff (h : d.SameModules d') {s : Finset String} :
    d'.IsComponent s ↔ d.IsComponent s := by
  simp only [IsComponent, Together, h.reaches_iff, h.mem_keys_iff]

theorem isCyclic_iff (h : d.SameModules d') {s : Finset String} :
    d'.IsCyclic s ↔ d.IsCyclic s := by
  simp only [IsCyclic, h.uses_iff]

/-- **The recursive groups are the same sets.** Both searches list every
cyclic component once, and the components are read off the graph alone. -/
theorem cycles_perm (h : d.SameModules d') :
    (d'.cycles.map List.toFinset).Perm (d.cycles.map List.toFinset) := by
  refine (List.perm_ext_iff_of_nodup d'.nodup_map_cycles d.nodup_map_cycles).2 fun s => ?_
  rw [mem_map_cycles_iff, mem_map_cycles_iff, h.isComponent_iff, h.isCyclic_iff]

end SameModules

/-! ## Records in another order -/

variable {rs rs' : List ModuleRecord}

/-- Records with different names are the modules of their design, in order. -/
theorem entries_ofRecords (h : (rs.map ModuleRecord.name).Nodup) :
    (ofRecords rs).1.entries = rs.map fun r => (r.name, r) := by
  have hmap : (ofRecords rs).1 = .ofList (rs.map fun r => (r.name, r)) := by
    rw [fst_ofRecords, OrderedMap.ofList, List.foldl_map]
    rfl
  rw [hmap]
  refine OrderedMap.entries_ofList ?_
  rwa [List.map_map]

theorem keys_ofRecords (h : (rs.map ModuleRecord.name).Nodup) :
    (ofRecords rs).1.keys = rs.map ModuleRecord.name := by
  rw [OrderedMap.keys, entries_ofRecords h, List.map_map]
  rfl

theorem sameModules_of_perm (h : (rs.map ModuleRecord.name).Nodup) (hperm : rs.Perm rs') :
    (ofRecords rs).1.SameModules (ofRecords rs').1 := by
  have h' : (rs'.map ModuleRecord.name).Nodup := (hperm.map _).nodup h
  refine OrderedMap.get?_eq_of_perm ?_
  rw [entries_ofRecords h, entries_ofRecords h']
  exact hperm.map _

/-- **The structure of a design does not depend on the order of its
records**, where these have different names. Below the same tops the
hierarchy is the same, entry by entry. The top modules are the same, in the
order in which their records now come. The recursive groups are the same
sets, each as often as before. -/
theorem structure_eq_of_perm (h : (rs.map ModuleRecord.name).Nodup) (hperm : rs.Perm rs') :
    (∀ tops showUndeclared, (ofRecords rs').1.hierarchy (some tops) showUndeclared =
        (ofRecords rs).1.hierarchy (some tops) showUndeclared) ∧
      (∀ name, name ∈ (ofRecords rs').1.tops ↔ name ∈ (ofRecords rs).1.tops) ∧
      (ofRecords rs').1.tops =
        (rs'.map ModuleRecord.name).filter (· ∈ (ofRecords rs).1.tops) ∧
      ((ofRecords rs').1.cycles.map List.toFinset).Perm
        ((ofRecords rs).1.cycles.map List.toFinset) := by
  have hsame := sameModules_of_perm h hperm
  refine ⟨hsame.hierarchy_eq, fun _ => hsame.mem_tops_iff, ?_, hsame.cycles_perm⟩
  rw [hsame.tops_eq, keys_ofRecords ((hperm.map _).nodup h)]

/-- A top over two modules that instantiate each other, one of them itself. -/
def topOverPair : List ModuleRecord := [
  ⟨"a.sv", "top", [], [], [], [⟨"u_x", "x"⟩]⟩,
  ⟨"b.sv", "x", [], [], [], [⟨"u_y", "y"⟩, ⟨"u_p", "pad"⟩]⟩,
  ⟨"c.sv", "y", [], [], [], [⟨"u_x", "x"⟩, ⟨"u_y", "y"⟩]⟩]

/-- Read from the last file to the first, the search starts with the other
member of the pair. -/
theorem topOverPair_reversed :
    (topOverPair.map ModuleRecord.name).Nodup ∧
      topOverPair.Perm topOverPair.reverse ∧
      ((ofRecords topOverPair.reverse).1.hierarchy (some ["x", "top"]) true =
        (ofRecords topOverPair).1.hierarchy (some ["x", "top"]) true) ∧
      (ofRecords topOverPair.reverse).1.tops = ["top"] ∧
      ((ofRecords topOverPair.reverse).1.cycles.map List.toFinset).Perm
        ((ofRecords topOverPair).1.cycles.map List.toFinset) := by
  have hnames : (topOverPair.map ModuleRecord.name).Nodup := by decide
  have hperm : topOverPair.Perm topOverPair.reverse := (List.reverse_perm _).symm
  obtain ⟨hhierarchy, -, htops, hcycles⟩ := structure_eq_of_perm hnames hperm
  refine ⟨hnames, hperm, hhierarchy _ _, htops.trans (by decide), hcycles⟩

end Design

end DesignAtlas
