import DesignAtlas.Proofs.Nesting

/-!
# Parts of a hierarchy are hierarchies

The walk below an instance asks of the modules above it only whether a type
is among them. A module that the instance's type does not reach is never the
type in question, so it plays no part: with or without it the walk is the
same, but for the depths (`walk_append_ancestors`). Hence the entries that
belong to an instance are those of a hierarchy of its own, wherever the
instance stands.
-/

namespace DesignAtlas

namespace Entry

/-- An entry some levels further down. -/
def deepened (levels : ℤ) (e : Entry) : Entry := { e with depth := e.depth + levels }

/-- An entry as the instance that another entry shows. -/
def asInstance (shown e : Entry) : Entry :=
  { e with instance? := shown.instance?, parent? := shown.parent? }

end Entry

namespace Design

variable {d : Design} {showUndeclared : Bool} {instance? parent? : Option String}
variable {type : String} {depth levels : ℕ} {above ancestors : List String}
variable {p : Pending} {r : ModuleRecord}

/-- **Modules that a type does not reach play no part above it.** They are
neither the type nor the type of anything below, so the same types are marked
recursive. -/
theorem walk_append_ancestors
    (habove : type ∈ d.keys → ∀ a ∈ above, ¬ d.Reaches type a) :
    d.walk showUndeclared instance? type (depth + levels) parent? (above ++ ancestors) =
      (d.walk showUndeclared instance? type depth parent? ancestors).map
        (Entry.deepened levels) := by
  fun_induction walk d showUndeclared instance? type depth parent? ancestors with
  | case1 instance? type depth parent? ancestors hr hshow =>
    rw [walk_of_none hr, if_pos hshow]
    rfl
  | case2 instance? type depth parent? ancestors hr hhide =>
    rw [walk_of_none hr, if_neg hhide]
    rfl
  | case3 instance? type depth parent? ancestors r hr hmem =>
    rw [walk_of_mem hr (List.mem_append_right _ hmem)]
    rfl
  | case4 instance? type depth parent? ancestors r hr hnot ih =>
    have hk : type ∈ d.keys := mem_keys_of_get? hr
    have hfresh : type ∉ above ++ ancestors := by
      intro hmem
      rcases List.mem_append.1 hmem with hmem | hmem
      · exact habove hk type hmem (Reaches.refl d type)
      · exact hnot hmem
    have hbelow : ∀ i ∈ r.instances,
        d.walk showUndeclared (some i.name) i.type (depth + levels + 1) (some r.name)
            (above ++ ancestors ++ [type]) =
          (d.walk showUndeclared (some i.name) i.type (depth + 1) (some r.name)
            (ancestors ++ [type])).map (Entry.deepened levels) := by
      intro i hi
      -- what the instance reaches, its module reaches
      have hih := ih i fun hik a ha hreach => habove hk a ha
        ((Uses.reaches ⟨r, hr, List.mem_map_of_mem hi, hik⟩).trans hreach)
      rwa [← List.append_assoc, Nat.add_right_comm] at hih
    rw [walk_of_not_mem hr hfresh, List.map_cons, List.map_flatMap, List.flatMap_congr hbelow]
    rfl

/-- **The walk of an item is that of its type as a top**, moved to the place
of the item. -/
theorem walkItem_eq_top (hr : d.get? p.type = some r)
    (habove : ∀ a ∈ p.ancestors, ¬ d.Reaches p.type a) :
    d.walkItem showUndeclared p =
      ((d.walkItem showUndeclared (.top p.type)).map (Entry.deepened p.depth)).modifyHead
        (d.entryOf p).asInstance := by
  have hp : p.type ∉ p.ancestors := fun hmem => habove _ hmem (Reaches.refl d p.type)
  have hbelow : ∀ i ∈ r.instances,
      d.walk showUndeclared (some i.name) i.type (p.depth + 1) (some r.name)
          (p.ancestors ++ [p.type]) =
        (d.walk showUndeclared (some i.name) i.type (0 + 1) (some r.name)
          ([] ++ [p.type])).map (Entry.deepened p.depth) := by
    intro i hi
    rw [Nat.add_comm p.depth]
    refine walk_append_ancestors fun hik a ha hreach => habove a ha ?_
    exact (Uses.reaches ⟨r, hr, List.mem_map_of_mem hi, hik⟩).trans hreach
  rw [walkItem, walkItem, walk_of_not_mem hr hp, List.flatMap_congr hbelow]
  simp only [Pending.top]
  rw [walk_of_not_mem hr List.not_mem_nil, List.map_cons, List.modifyHead_cons, List.map_flatMap]
  simp [Entry.deepened, Entry.asInstance, entryOf]

/-- **A part of a hierarchy is a hierarchy.** Take a resolved entry whose
type reaches, by zero or more instantiations, none of the types that enclose
it; so it is not marked recursive. The entry and what belongs to it are the
hierarchy of its type, with every depth increased by the depth of the entry,
and the first line shown as the instance that it is. -/
theorem block_eq_own_hierarchy {tops? : Option (List String)} {before after : List Entry}
    {e : Entry} (hsplit : (d.hierarchy tops? showUndeclared).1 = before ++ e :: after)
    (hresolved : e.resolved = true)
    (hfree : ∀ a ∈ e.enclosing before, ¬ d.Reaches e.type a.type) :
    e :: e.owned after =
      ((d.hierarchy (some [e.type]) showUndeclared).1.map (Entry.deepened e.depth)).modifyHead
        e.asInstance := by
  obtain ⟨p, rest, hnested, rfl, rfl⟩ := (d.nested_tops _).exists_shown hsplit
  have hrest : ∀ q ∈ rest, q.depth ≤ p.depth := (List.pairwise_cons.1 hnested.ordered).1
  obtain ⟨r, hr⟩ := OrderedMap.exists_get?_iff.2 (resolved_entryOf.1 hresolved)
  have habove : ∀ a ∈ p.ancestors, ¬ d.Reaches p.type a := by
    intro a ha
    rw [hnested.ancestors p List.mem_cons_self] at ha
    obtain ⟨c, hc, rfl⟩ := List.mem_map.1 ha
    exact hfree c hc
  have hshown : (d.visit p).entryIf showUndeclared = some (d.entryOf p) := by
    rw [entryIf_visit, hr]
    rfl
  have hblock : d.entryOf p :: d.report showUndeclared (d.visit p).opened =
      d.walkItem showUndeclared p := by
    rw [walkItem_eq, hshown, report, entries_visitsFrom]
    rfl
  have hown : (d.hierarchy (some [p.type]) showUndeclared).1 =
      d.walkItem showUndeclared (.top p.type) := by
    change Visit.entries showUndeclared (d.visitsFrom [.top p.type]) = _
    rw [entries_visitsFrom, List.flatMap_singleton]
  rw [owned_report hrest, hblock, walkItem_eq_top hr habove, ← hown]
  rfl

/-- A module over two that instantiate each other. -/
def soc : Design :=
  (ofRecords [
    ⟨"soc.sv", "soc", [], [], [], [⟨"u_pad", "pad"⟩, ⟨"u_core", "core"⟩, ⟨"u_alu", "alu"⟩]⟩,
    ⟨"core.sv", "core", [], [], [], [⟨"u_alu", "alu"⟩, ⟨"u_rom", "rom"⟩]⟩,
    ⟨"alu.sv", "alu", [], [], [], [⟨"u_core", "core"⟩]⟩]).1

/-- The third line of its report. -/
def coreInSoc : Entry :=
  ⟨soc.get? "core", "core", 1, some "u_core", some "soc", false⟩

theorem core_not_reaches_soc : ¬ soc.Reaches "core" "soc" := by
  intro hreach
  have hclosed : ∀ a ∈ ["core", "alu"], ∀ b ∈ soc.uses a, b ∈ ["core", "alu"] := by decide
  have hmem : "soc" ∈ ["core", "alu"] := hreach.mem_of_closed (S := fun v => v ∈ ["core", "alu"])
    (fun a ha b hab => hclosed a ha b (mem_uses.2 hab)) List.mem_cons_self
  exact absurd hmem (by decide)

/-- Below the top the pair is listed as on its own, with the instance that is
marked recursive and the undeclared one. -/
theorem coreInSoc_block_eq :
    (soc.hierarchy none true).1 = (soc.hierarchy none true).1.take 2 ++ coreInSoc ::
        (soc.hierarchy none true).1.drop 3 ∧
      coreInSoc.resolved = true ∧
      (∀ a ∈ coreInSoc.enclosing ((soc.hierarchy none true).1.take 2),
        ¬ soc.Reaches coreInSoc.type a.type) ∧
      ((coreInSoc :: coreInSoc.owned ((soc.hierarchy none true).1.drop 3)).map fun e =>
        (e.type, e.depth, e.recursive)) =
          [("core", 1, false), ("alu", 2, false), ("core", 3, true), ("rom", 2, false)] ∧
      coreInSoc :: coreInSoc.owned ((soc.hierarchy none true).1.drop 3) =
        ((soc.hierarchy (some ["core"]) true).1.map (Entry.deepened 1)).modifyHead
          coreInSoc.asInstance := by
  have hsplit : (soc.hierarchy none true).1 = (soc.hierarchy none true).1.take 2 ++ coreInSoc ::
      (soc.hierarchy none true).1.drop 3 := by decide +kernel
  have htypes : ∀ a ∈ coreInSoc.enclosing ((soc.hierarchy none true).1.take 2), a.type = "soc" := by
    decide +kernel
  have hfree : ∀ a ∈ coreInSoc.enclosing ((soc.hierarchy none true).1.take 2),
      ¬ soc.Reaches coreInSoc.type a.type := fun a ha =>
    htypes a ha ▸ core_not_reaches_soc
  exact ⟨hsplit, rfl, hfree, by decide +kernel, block_eq_own_hierarchy hsplit rfl hfree⟩

end Design

end DesignAtlas
