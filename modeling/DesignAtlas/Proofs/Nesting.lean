import DesignAtlas.Proofs.Walk
import Mathlib.Data.List.TakeWhile

/-!
# Reading the tree off the depths

A report lists the instantiation tree line by line, and says of each line
only how deep it is. What belongs to an entry are the deeper entries that
follow it, up to the first that is no deeper; its children are those one
level down. `Entry.owned` and `Entry.childrenIn` read a list of entries in
this way, and `Entry.enclosing` gives the entries that a later one belongs
to.

The frontier of the walk is ordered by depth, the deepest items first. So
what an item opens is listed before anything that is no deeper than the
item, and the modules above an item are the types of the entries that
enclose its own (`Nested`). An undeclared type opens nothing, so all this
holds whether it is shown or not (`report`); `lines` are the entries with
the undeclared types.
-/

namespace DesignAtlas

namespace Entry

/-! ## The tree in a list of entries -/

/-- The entries that belong to an entry, of those listed after it: they
are deeper, and end where one is not. -/
def owned (e : Entry) (after : List Entry) : List Entry :=
  after.takeWhile fun c => e.depth < c.depth

/-- The children of an entry, of those listed after it: they belong to it
and are one level deeper. -/
def childrenIn (e : Entry) (after : List Entry) : List Entry :=
  (e.owned after).filter fun c => c.depth = e.depth + 1

/-- An entry encloses a later one: everything in between belongs to it,
and so does the later one. -/
def Encloses (a : Entry) (between : List Entry) (e : Entry) : Prop :=
  a.owned (between ++ [e]) = between ++ [e]

instance (a : Entry) (between : List Entry) (e : Entry) : Decidable (a.Encloses between e) :=
  inferInstanceAs (Decidable (_ = _))

/-- **The entries that enclose an entry**, of those listed before it, the
outermost first. -/
def enclosing (e : Entry) : List Entry → List Entry
  | [] => []
  | a :: between => if a.Encloses between e then a :: e.enclosing between else e.enclosing between

variable {a e x : Entry} {between : List Entry}

theorem encloses_iff :
    a.Encloses between e ↔ (∀ c ∈ between, a.depth < c.depth) ∧ a.depth < e.depth := by
  rw [Encloses, owned, List.takeWhile_eq_self_iff]
  simp only [decide_eq_true_eq, List.forall_mem_append, List.forall_mem_singleton]

theorem encloses_append_of_lt (hx : x.depth < e.depth) :
    a.Encloses (between ++ [x]) e ↔ a.Encloses between x := by
  simp only [encloses_iff, List.forall_mem_append, List.forall_mem_singleton]
  exact ⟨fun h => h.1, fun h => ⟨h, h.2.trans hx⟩⟩

theorem encloses_append_of_le (hx : e.depth ≤ x.depth) :
    a.Encloses (between ++ [x]) e ↔ a.Encloses between e := by
  simp only [encloses_iff, List.forall_mem_append, List.forall_mem_singleton]
  exact ⟨fun h => ⟨h.1.1, h.2⟩, fun h => ⟨⟨h.1, h.2.trans_le hx⟩, h.2⟩⟩

/-- **One more entry before an entry.** If it is less deep, it is the
innermost that encloses the entry, and what else does encloses it as
well; if not, it makes no difference. -/
theorem enclosing_append_singleton (e x : Entry) (before : List Entry) :
    e.enclosing (before ++ [x]) =
      if x.depth < e.depth then x.enclosing before ++ [x] else e.enclosing before := by
  induction before with
  | nil =>
    have hiff : x.Encloses [] e ↔ x.depth < e.depth := by simp [encloses_iff]
    simp only [List.nil_append, enclosing, hiff]
  | cons a between ih =>
    rw [List.cons_append, enclosing, ih, enclosing, enclosing]
    by_cases hx : x.depth < e.depth
    · simp only [if_pos hx, encloses_append_of_lt hx]
      split <;> rfl
    · simp only [if_neg hx, encloses_append_of_le (not_lt.1 hx)]

end Entry

namespace Design

variable {d : Design} {p q : Pending} {frontier rest : List Pending}
variable {e : Entry} {done before after : List Entry} {n : ℕ} {showUndeclared : Bool}

/-! ## The lines of a frontier -/

/-- The entries of a frontier. Those of undeclared types are there only on
request. -/
def report (d : Design) (showUndeclared : Bool) (frontier : List Pending) : List Entry :=
  Visit.entries showUndeclared (d.visitsFrom frontier)

theorem report_nil (d : Design) (showUndeclared : Bool) : d.report showUndeclared [] = [] := by
  rw [report, visitsFrom]
  rfl

/-- The entry of the first item, if it is shown, comes before those of what
the item opens. -/
theorem report_cons (d : Design) (showUndeclared : Bool) (p : Pending) (rest : List Pending) :
    d.report showUndeclared (p :: rest) =
      ((d.visit p).entryIf showUndeclared).toList ++
        d.report showUndeclared ((d.visit p).opened ++ rest) := by
  rw [report, visitsFrom, Visit.entries_cons]
  rfl

theorem report_append (d : Design) (showUndeclared : Bool) (frontier rest : List Pending) :
    d.report showUndeclared (frontier ++ rest) =
      d.report showUndeclared frontier ++ d.report showUndeclared rest := by
  simp only [report, entries_visitsFrom, List.flatMap_append]

/-- **An item is shown, or it is undeclared and opens nothing.** -/
theorem entryIf_visit_cases (d : Design) (showUndeclared : Bool) (p : Pending) :
    (d.visit p).entryIf showUndeclared = some (d.entryOf p) ∨
      (d.visit p).entryIf showUndeclared = none ∧ (d.visit p).opened = [] := by
  rw [entryIf_visit]
  split
  · exact Or.inl rfl
  · rename_i hhidden
    rw [Bool.or_eq_true, not_or, Option.not_isSome_iff_eq_none] at hhidden
    refine Or.inr ⟨rfl, ?_⟩
    rw [visit, hhidden.1]
    rfl

/-- The entries of a frontier, those of undeclared types included. -/
def lines (d : Design) (frontier : List Pending) : List Entry :=
  Visit.entries true (d.visitsFrom frontier)

theorem lines_nil (d : Design) : d.lines [] = [] := d.report_nil true

/-- The first item has the first line, and what it opens follows. -/
theorem lines_cons (d : Design) (p : Pending) (rest : List Pending) :
    d.lines (p :: rest) = d.entryOf p :: d.lines ((d.visit p).opened ++ rest) := by
  rw [lines, visitsFrom, Visit.entries_cons, entryIf_visit, Bool.or_true, if_pos rfl]
  rfl

theorem lines_append (d : Design) (frontier rest : List Pending) :
    d.lines (frontier ++ rest) = d.lines frontier ++ d.lines rest :=
  d.report_append true frontier rest

theorem depth_of_mem_opened (hq : q ∈ (d.visit p).opened) : q.depth = p.depth + 1 := by
  obtain ⟨r, -, hbelow⟩ := mem_opened_iff.1 hq
  obtain ⟨i, -, rfl⟩ := List.mem_map.1 hbelow
  rfl

/-- No entry is less deep than the items that it comes from. -/
theorem le_depth_of_mem_report (hfrontier : ∀ p ∈ frontier, n ≤ p.depth) :
    ∀ c ∈ d.report showUndeclared frontier, (n : ℤ) ≤ c.depth := by
  intro c hc
  obtain ⟨x, hx, hentry⟩ := Visit.mem_entries_iff.1 hc
  have hstep : ∀ p, n ≤ p.depth → ∀ q ∈ (d.visit p).opened, n ≤ q.depth := by
    intro p hp q hq
    have := depth_of_mem_opened hq
    omega
  have hle := ((d.run_visitsFrom frontier).forall_items hstep hfrontier).1 x hx
  rw [(Visit.type_depth_of_entryIf hentry).2]
  exact Int.ofNat_le.2 hle

theorem lt_depth_of_mem_report_opened :
    ∀ c ∈ d.report showUndeclared (d.visit p).opened, (d.entryOf p).depth < c.depth := by
  intro c hc
  have hle : ((p.depth + 1 : ℕ) : ℤ) ≤ c.depth :=
    le_depth_of_mem_report (fun q hq => (depth_of_mem_opened hq).ge) c hc
  change (p.depth : ℤ) < c.depth
  omega

/-- The first entry of a frontier is that of one of its own items: what
stands before it is not shown and opens nothing. -/
theorem head?_report_depth_le (hfrontier : ∀ p ∈ frontier, p.depth ≤ n) :
    ∀ c ∈ (d.report showUndeclared frontier).head?, c.depth ≤ (n : ℤ) := by
  induction frontier with
  | nil => simp [report_nil]
  | cons p frontier ih =>
    intro c hc
    rw [report_cons] at hc
    rcases entryIf_visit_cases d showUndeclared p with hshown | ⟨hhidden, hopened⟩
    · rw [hshown] at hc
      obtain rfl : d.entryOf p = c := Option.some.inj hc
      exact Int.ofNat_le.2 (hfrontier p List.mem_cons_self)
    · rw [hhidden, hopened] at hc
      exact ih (fun q hq => hfrontier q (List.mem_cons_of_mem _ hq)) c hc

/-- **What belongs to the entry of an item are the entries of what it
opens**, where the items that wait are no deeper. -/
theorem owned_report (hrest : ∀ q ∈ rest, q.depth ≤ p.depth) :
    (d.entryOf p).owned (d.report showUndeclared ((d.visit p).opened ++ rest)) =
      d.report showUndeclared (d.visit p).opened := by
  have hopened : ∀ c ∈ d.report showUndeclared (d.visit p).opened,
      decide ((d.entryOf p).depth < c.depth) = true := fun c hc =>
    decide_eq_true (lt_depth_of_mem_report_opened c hc)
  rw [Entry.owned, report_append, List.takeWhile_append_of_pos hopened]
  -- the first item that waits and is shown ends what belongs to the entry
  have hstop : ∀ c ∈ (d.report showUndeclared rest).head?, c.depth ≤ (p.depth : ℤ) :=
    head?_report_depth_le hrest
  generalize d.report showUndeclared rest = waiting at hstop ⊢
  rcases waiting with - | ⟨c, later⟩
  · rw [List.takeWhile_nil, List.append_nil]
  · have hc : ¬ decide ((d.entryOf p).depth < c.depth) = true := by
      rw [decide_eq_true_iff, not_lt]
      exact hstop c rfl
    rw [List.takeWhile_cons, if_neg hc, List.append_nil]

theorem owned_lines (hrest : ∀ q ∈ rest, q.depth ≤ p.depth) :
    (d.entryOf p).owned (d.lines ((d.visit p).opened ++ rest)) = d.lines (d.visit p).opened :=
  owned_report hrest

/-- **Of items of one depth, the lines at that depth are their own**, in
order. -/
theorem filter_depth_lines (hfrontier : ∀ p ∈ frontier, p.depth = n) :
    ((d.lines frontier).filter fun c => c.depth = (n : ℤ)) = frontier.map d.entryOf := by
  induction frontier with
  | nil => rw [lines_nil, List.filter_nil, List.map_nil]
  | cons p frontier ih =>
    have hp : p.depth = n := hfrontier p List.mem_cons_self
    have hown : decide ((d.entryOf p).depth = n) = true :=
      decide_eq_true (congrArg Nat.cast hp)
    have hdeeper : ((d.lines (d.visit p).opened).filter fun c => c.depth = (n : ℤ)) = [] := by
      rw [List.filter_eq_nil_iff]
      intro c hc
      have hlt : (p.depth : ℤ) < c.depth := lt_depth_of_mem_report_opened c hc
      rw [decide_eq_true_iff]
      omega
    rw [lines_cons, List.filter_cons, if_pos hown, lines_append, List.filter_append, hdeeper,
      ih fun q hq => hfrontier q (List.mem_cons_of_mem _ hq), List.nil_append, List.map_cons]

theorem childrenIn_lines (hrest : ∀ q ∈ rest, q.depth ≤ p.depth) :
    (d.entryOf p).childrenIn (d.lines ((d.visit p).opened ++ rest)) =
      (d.visit p).opened.map d.entryOf := by
  rw [Entry.childrenIn, owned_lines hrest]
  exact filter_depth_lines fun q hq => depth_of_mem_opened hq

/-- An entry that is resolved and not marked opens the instances of its
record. -/
theorem opened_eq_below {r : ModuleRecord} (hr : d.get? p.type = some r)
    (hrec : (d.entryOf p).recursive = false) : (d.visit p).opened = p.below r := by
  have hnot : p.type ∉ p.ancestors := by
    intro hp
    have hmarked := recursive_entryOf.2 ⟨mem_keys_of_get? hr, hp⟩
    rw [hrec] at hmarked
    cases hmarked
  rw [Visit.opened, expanded_iff.2 ⟨hr, hnot⟩, visit_item]

/-- Any other entry opens nothing. -/
theorem opened_eq_nil (h : (d.entryOf p).resolved = false ∨ (d.entryOf p).recursive = true) :
    (d.visit p).opened = [] := by
  rcases visit_cases d p with ⟨-, hv⟩ | ⟨r, -, -, hv⟩ | ⟨r, hr, hp, -⟩
  · rw [hv]
    rfl
  · rw [hv]
    rfl
  · rcases h with h | h
    · rw [resolved_entryOf.2 (mem_keys_of_get? hr)] at h
      cases h
    · exact absurd (recursive_entryOf.1 h).2 hp

/-! ## The frontier between two lines -/

/-- **How a frontier lies in the tree listed so far**: the deepest items
come first, and above each item stand the types of the entries that would
enclose its own if it were listed next. -/
structure Nested (d : Design) (done : List Entry) (frontier : List Pending) : Prop where
  ordered : frontier.Pairwise fun p q => q.depth ≤ p.depth
  ancestors : ∀ p ∈ frontier, p.ancestors = ((d.entryOf p).enclosing done).map Entry.type

theorem nested_tops (d : Design) (tops : List String) : d.Nested [] (tops.map .top) := by
  refine ⟨?_, fun p hp => ?_⟩
  · rw [List.pairwise_map]
    exact List.pairwise_of_forall fun _ _ => le_rfl
  · obtain ⟨name, -, rfl⟩ := List.mem_map.1 hp
    rfl

/-- **A step keeps the frontier in its place.** The line that is added
encloses what its item opens, and none of the items that wait. -/
theorem Nested.step (h : d.Nested done (p :: rest)) :
    d.Nested (done ++ [d.entryOf p]) ((d.visit p).opened ++ rest) := by
  obtain ⟨hfirst, hordered⟩ := List.pairwise_cons.1 h.ordered
  refine ⟨?_, fun q hq => ?_⟩
  · rw [List.pairwise_append]
    refine ⟨List.pairwise_of_forall_mem_list fun q hq q' hq' => ?_, hordered,
      fun q hq q' hq' => ?_⟩
    · rw [depth_of_mem_opened hq, depth_of_mem_opened hq']
    · have hle := hfirst q' hq'
      rw [depth_of_mem_opened hq]
      omega
  · rw [Entry.enclosing_append_singleton]
    rcases List.mem_append.1 hq with hq | hq
    · -- the new line is the innermost that encloses what its item opens
      have hlt : (d.entryOf p).depth < (d.entryOf q).depth := by
        change (p.depth : ℤ) < q.depth
        rw [depth_of_mem_opened hq]
        omega
      rw [if_pos hlt, List.map_append, ← h.ancestors p List.mem_cons_self]
      obtain ⟨r, -, hbelow⟩ := mem_opened_iff.1 hq
      obtain ⟨i, -, rfl⟩ := List.mem_map.1 hbelow
      rfl
    · -- an item that waits is no deeper than the new line
      have hle : ¬ (d.entryOf p).depth < (d.entryOf q).depth :=
        not_lt.2 (Int.ofNat_le.2 (hfirst q hq))
      rw [if_neg hle]
      exact h.ancestors q (List.mem_cons_of_mem _ hq)

/-- An item that opens nothing leaves the others in their place, even if it
is not listed. -/
theorem Nested.tail (h : d.Nested done (p :: rest)) : d.Nested done rest :=
  ⟨(List.pairwise_cons.1 h.ordered).2, fun q hq => h.ancestors q (List.mem_cons_of_mem _ hq)⟩

/-- **Every entry of a report is that of an item whose frontier lies in its
place**, and the entries after it are those of what it opens and of the items
that wait. The induction is along the loop. -/
theorem Nested.exists_shown (h : d.Nested done frontier)
    (hreport : d.report showUndeclared frontier = before ++ e :: after) :
    ∃ p rest, d.Nested (done ++ before) (p :: rest) ∧ e = d.entryOf p ∧
      after = d.report showUndeclared ((d.visit p).opened ++ rest) := by
  fun_induction visitsFrom d frontier generalizing done before with
  | case1 => simp [report_nil] at hreport
  | case2 p rest ih =>
    rw [report_cons] at hreport
    rcases entryIf_visit_cases d showUndeclared p with hshown | ⟨hhidden, hopened⟩
    · rw [hshown, Option.toList_some, List.singleton_append] at hreport
      rcases before with - | ⟨b, before⟩
      · rw [List.nil_append, List.cons.injEq] at hreport
        exact ⟨p, rest, by rwa [List.append_nil], hreport.1.symm, hreport.2.symm⟩
      · rw [List.cons_append, List.cons.injEq] at hreport
        obtain ⟨rfl, hlater⟩ := hreport
        obtain ⟨q, rest', hnested, he, hafter⟩ := ih h.step hlater
        exact ⟨q, rest', by rwa [List.append_assoc] at hnested, he, hafter⟩
    · rw [hhidden, Option.toList_none, List.nil_append] at hreport
      refine ih ?_ hreport
      rw [hopened]
      exact h.tail

theorem Nested.exists_item (h : d.Nested done frontier)
    (hlines : d.lines frontier = before ++ e :: after) :
    ∃ p rest, d.Nested (done ++ before) (p :: rest) ∧ e = d.entryOf p ∧
      after = d.lines ((d.visit p).opened ++ rest) :=
  h.exists_shown hlines

/-- **The depths alone give the instantiation tree.** In a report that
shows the undeclared types too, the entries of depth zero are the tops.
An entry shows the record of its type. If it is resolved and not marked
recursive, its children are the instances of its record, in order and with
that module as their parent; any other entry has nothing below it. A
resolved entry is marked recursive exactly when an entry that encloses it
has the same type. -/
theorem depths_give_instantiation_tree (d : Design) (tops? : Option (List String)) :
    (((d.hierarchy tops? true).1.filter fun e => e.depth = 0).map fun e =>
        (e.instance?, e.type, e.parent?)) =
        ((tops?.getD d.tops).map fun top => (none, top, none)) ∧
      ∀ before e after, (d.hierarchy tops? true).1 = before ++ e :: after →
        e.record? = d.get? e.type ∧
        (∀ r, e.record? = some r → e.recursive = false →
          ((e.childrenIn after).map fun c => (c.instance?, c.type)) =
              (r.instances.map fun i => (some i.name, i.type)) ∧
            ∀ c ∈ e.childrenIn after, c.parent? = some r.name) ∧
        (e.resolved = false ∨ e.recursive = true → e.owned after = []) ∧
        (e.resolved = true →
          (e.recursive = true ↔ ∃ a ∈ e.enclosing before, a.type = e.type)) := by
  have hlines : (d.hierarchy tops? true).1 = d.lines ((tops?.getD d.tops).map .top) := rfl
  rw [hlines]
  refine ⟨?_, fun before e after hsplit => ?_⟩
  · have htops : ∀ p ∈ (tops?.getD d.tops).map Pending.top, p.depth = 0 := by
      intro p hp
      obtain ⟨name, -, rfl⟩ := List.mem_map.1 hp
      rfl
    have hzero := filter_depth_lines (d := d) htops
    rw [Int.natCast_zero] at hzero
    rw [hzero, List.map_map, List.map_map]
    rfl
  · obtain ⟨p, rest, hnested, rfl, rfl⟩ := (d.nested_tops _).exists_item hsplit
    rw [List.nil_append] at hnested
    have hrest : ∀ q ∈ rest, q.depth ≤ p.depth := (List.pairwise_cons.1 hnested.ordered).1
    have hmarked : p.type ∈ p.ancestors ↔
        ∃ a ∈ (d.entryOf p).enclosing before, a.type = (d.entryOf p).type := by
      rw [hnested.ancestors p List.mem_cons_self, List.mem_map]
      rfl
    rw [childrenIn_lines hrest, owned_lines hrest, ← hmarked]
    refine ⟨rfl, fun r hr hrec => ?_, fun hend => ?_, fun hresolved => ?_⟩
    · rw [opened_eq_below hr hrec]
      refine ⟨?_, fun c hc => ?_⟩
      · rw [Pending.below, List.map_map, List.map_map]
        rfl
      · obtain ⟨q, hq, rfl⟩ := List.mem_map.1 hc
        obtain ⟨i, -, rfl⟩ := List.mem_map.1 hq
        rfl
    · rw [opened_eq_nil hend, lines_nil]
    · rw [recursive_entryOf]
      exact and_iff_right (resolved_entryOf.1 hresolved)

end Design

end DesignAtlas
