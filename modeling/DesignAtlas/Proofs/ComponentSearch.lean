import DesignAtlas.Proofs.Instantiation
import Mathlib.Data.List.Infix
import Mathlib.Data.List.Pairwise

/-!
# The search for components

The search goes down one path of modules at a time. `Sound` is what holds
of its state whenever the modules of `path` are entered and not left:
the stack is ordered by number, lower modules of the stack reach the
higher ones, each reaches one of the path, and what is closed is a list
of components that no edge leaves. `Sound.leave_root` is where a component
is closed, and the one place where the lowest numbers matter: no edge
leaves what lies above the root, so that is a whole component.

`visit_spec` puts the steps together, by induction on the depth that is
left; `searchAll_spec` is the whole search.
-/

namespace DesignAtlas

namespace ComponentSearch

variable {d : Design} {s t : ComponentSearch} {path : List String} {u v w : String} {n : ℕ}

/-! ## The operations, field by field -/

theorem found_enter : (s.enter v).found w = true ↔ v = w ∨ s.found w = true := by
  simp [found, enter]

theorem number_enter : (s.enter v).number w = if v = w then s.counter else s.number w := by
  simp only [number, enter, Std.HashMap.getD_insert, beq_iff_eq]

theorem lowest_enter : (s.enter v).lowest w = if v = w then s.counter else s.lowest w := by
  simp only [lowest, enter, Std.HashMap.getD_insert, beq_iff_eq]

theorem lowest_lower :
    (s.lower v n).lowest w = if v = w then min (s.lowest v) n else s.lowest w := by
  simp only [lowest, lower, Std.HashMap.getD_insert, beq_iff_eq]

/-- Popping down to a module takes off what is above it, and itself. -/
theorem popTo_append {top rest : List String} (h : v ∉ top) :
    popTo v (top ++ v :: rest) = (top ++ [v], rest) := by
  induction top with
  | nil => simp [popTo]
  | cons x top ih =>
    have hx : x ≠ v := fun e => h (e ▸ List.mem_cons_self)
    rw [List.cons_append, popTo, if_neg hx, ih fun hv => h (List.mem_cons_of_mem _ hv)]
    rfl

theorem contains_foldl_erase {names : List String} {set : Std.HashSet String} :
    (names.foldl (fun names other => names.erase other) set).contains v = true ↔
      v ∉ names ∧ set.contains v = true := by
  induction names generalizing set with
  | nil => simp
  | cons x names ih =>
    rw [List.foldl_cons, ih, Std.HashSet.contains_erase]
    simp only [Bool.and_eq_true, Bool.not_eq_true', beq_eq_false_iff_ne, List.mem_cons, not_or]
    tauto

/-- A module that leads below itself is left where it stands. -/
theorem leave_of_ne (h : s.lowest v ≠ s.number v) : s.leave v = s := by
  rw [leave, if_neg h]

/-- The state after the component of `v` is closed. -/
theorem leave_of_eq {top rest : List String} (h : s.lowest v = s.number v)
    (hstack : s.stack = top ++ v :: rest) (htop : v ∉ top) :
    s.leave v = { s with
      stack := rest
      onStack := (top ++ [v]).foldl (fun names other => names.erase other) s.onStack
      components := s.components ++ [(top ++ [v]).reverse] } := by
  rw [leave, if_pos h, hstack, popTo_append htop]

/-! ## What holds between the steps -/

/-- **The invariant of the search**, while the modules of `path` are
entered and not left, the last one first. -/
structure Sound (d : Design) (path : List String) (s : ComponentSearch) : Prop where
  /-- What is found is on the stack or in a closed component. -/
  found_iff : ∀ v, s.found v = true ↔ v ∈ s.stack ∨ v ∈ s.components.flatten
  /-- Not in both. -/
  disjoint : ∀ v ∈ s.stack, v ∉ s.components.flatten
  known : ∀ v, s.found v = true → v ∈ d.keys
  number_lt : ∀ v, s.found v = true → s.number v < s.counter
  onStack_iff : ∀ v, s.onStack.contains v = true ↔ v ∈ s.stack
  stack_ordered : s.stack.Pairwise fun v w => s.number w < s.number v
  path_ordered : path.Pairwise fun v w => s.number w < s.number v
  path_subset : ∀ v ∈ path, v ∈ s.stack
  /-- Off the path, every edge of a module on the stack has been followed. -/
  followed : ∀ v ∈ s.stack, v ∉ path → ∀ w, d.Uses v w → s.found w = true
  /-- On the stack, earlier modules reach the later ones. -/
  down : ∀ v ∈ s.stack, ∀ w ∈ s.stack, s.number v ≤ s.number w → d.Reaches v w
  /-- And every module reaches one of the path that is not later. -/
  up : ∀ v ∈ s.stack, ∃ w ∈ path, s.number w ≤ s.number v ∧ d.Reaches v w
  nodup : s.components.flatten.Nodup
  component : ∀ c ∈ s.components, d.IsComponent c.toFinset
  /-- No edge leads from a closed component to a later one. -/
  closed : ∀ cs, cs <+: s.components → ∀ v ∈ cs.flatten, ∀ w, d.Uses v w → w ∈ cs.flatten

theorem sound_start (d : Design) : Sound d [] start := by
  constructor <;> simp [start, found]

namespace Sound

variable (h : Sound d path s)
include h

theorem found_of_stack (hv : v ∈ s.stack) : s.found v = true :=
  (h.found_iff v).2 (Or.inl hv)

theorem stack_nodup : s.stack.Nodup :=
  h.stack_ordered.imp fun hlt e => by simp [e] at hlt

theorem not_mem_above {top rest : List String} (hstack : s.stack = top ++ v :: rest) : v ∉ top := by
  have hnodup := h.stack_nodup
  rw [hstack, List.nodup_append] at hnodup
  exact fun hv => hnodup.2.2 v hv v List.mem_cons_self rfl

/-- Only closed modules are reached from closed ones. -/
theorem reaches_closed (hv : v ∈ s.components.flatten) (hvw : d.Reaches v w) :
    w ∈ s.components.flatten :=
  hvw.mem_of_closed (h.closed s.components (List.prefix_refl _)) hv

/-- With an empty path nothing is left open. -/
theorem stack_eq_nil (hpath : path = []) : s.stack = [] := by
  refine List.eq_nil_iff_forall_not_mem.2 fun v hv => ?_
  obtain ⟨w, hw, -, -⟩ := h.up v hv
  simp [hpath] at hw

/-- Noting a lowest number changes nothing else. -/
theorem lower : Sound d path (s.lower v n) :=
  ⟨h.found_iff, h.disjoint, h.known, h.number_lt, h.onStack_iff, h.stack_ordered, h.path_ordered,
    h.path_subset, h.followed, h.down, h.up, h.nodup, h.component, h.closed⟩

/-- **Entering a module** that the whole path leads to. -/
theorem enter (hnew : s.found v = false) (hv : v ∈ d.keys)
    (hpath : ∀ u ∈ path, d.Reaches u v) : Sound d (v :: path) (s.enter v) := by
  have hne : ∀ w, s.found w = true → v ≠ w := by
    rintro w hw rfl
    simp [hnew] at hw
  have hself : (s.enter v).number v = s.counter := by rw [number_enter, if_pos rfl]
  have hold : ∀ w, s.found w = true → (s.enter v).number w = s.number w := by
    intro w hw
    rw [number_enter, if_neg (hne w hw)]
  have holdStack : ∀ w ∈ s.stack, (s.enter v).number w = s.number w :=
    fun w hw => hold w (h.found_of_stack hw)
  have hlt : ∀ w ∈ s.stack, (s.enter v).number w < (s.enter v).number v := by
    intro w hw
    rw [hself, holdStack w hw]
    exact h.number_lt w (h.found_of_stack hw)
  -- whatever is on the stack reaches the path, and the path leads to `v`
  have hreach : ∀ w ∈ s.stack, d.Reaches w v := by
    intro w hw
    obtain ⟨g, hg, -, hwg⟩ := h.up w hw
    exact hwg.trans (hpath g hg)
  refine ⟨?found_iff, ?disjoint, ?known, ?number_lt, ?onStack_iff, ?stack_ordered, ?path_ordered,
    ?path_subset, ?followed, ?down, ?up, h.nodup, h.component, h.closed⟩
  case found_iff =>
    intro w
    rw [found_enter, h.found_iff, ← or_assoc]
    exact or_congr_left ⟨fun hw => List.mem_cons.2 (hw.imp_left Eq.symm),
      fun hw => (List.mem_cons.1 hw).imp_left Eq.symm⟩
  case disjoint =>
    intro w hw
    rcases List.mem_cons.1 hw with rfl | hw
    · intro hc
      have hfound := (h.found_iff w).2 (Or.inr hc)
      simp [hnew] at hfound
    · exact h.disjoint w hw
  case known =>
    intro w hw
    rcases found_enter.1 hw with rfl | hw
    · exact hv
    · exact h.known w hw
  case number_lt =>
    intro w hw
    rcases found_enter.1 hw with rfl | hw
    · rw [hself]
      exact Nat.lt_succ_self _
    · rw [hold w hw]
      exact Nat.lt_succ_of_lt (h.number_lt w hw)
  case onStack_iff =>
    intro w
    change (s.onStack.insert v).contains w = true ↔ w ∈ v :: s.stack
    rw [Std.HashSet.contains_insert, Bool.or_eq_true, beq_iff_eq, h.onStack_iff, List.mem_cons,
      eq_comm]
  case stack_ordered =>
    refine List.pairwise_cons.2 ⟨hlt, h.stack_ordered.imp_of_mem fun ha hb hab => ?_⟩
    rwa [holdStack _ ha, holdStack _ hb]
  case path_ordered =>
    refine List.pairwise_cons.2 ⟨fun w hw => hlt w (h.path_subset w hw),
      h.path_ordered.imp_of_mem fun ha hb hab => ?_⟩
    rwa [holdStack _ (h.path_subset _ ha), holdStack _ (h.path_subset _ hb)]
  case path_subset =>
    intro w hw
    rcases List.mem_cons.1 hw with rfl | hw
    · exact List.mem_cons_self
    · exact List.mem_cons_of_mem _ (h.path_subset w hw)
  case followed =>
    intro x hx hxpath w hxw
    rw [List.mem_cons, not_or] at hxpath
    rcases List.mem_cons.1 hx with rfl | hx
    · exact absurd rfl hxpath.1
    · exact found_enter.2 (Or.inr (h.followed x hx hxpath.2 w hxw))
  case down =>
    -- `v` has the highest number, so it is the later one or both are old
    intro x hx w hw hle
    rcases List.mem_cons.1 hw with rfl | hw'
    · rcases List.mem_cons.1 hx with rfl | hx'
      · exact Design.Reaches.refl d x
      · exact hreach x hx'
    · rcases List.mem_cons.1 hx with rfl | hx'
      · exact absurd (hlt w hw') (Nat.not_lt.2 hle)
      · rw [holdStack x hx', holdStack w hw'] at hle
        exact h.down x hx' w hw' hle
  case up =>
    intro x hx
    rcases List.mem_cons.1 hx with rfl | hx
    · exact ⟨x, List.mem_cons_self, Nat.le_refl _, Design.Reaches.refl d x⟩
    · obtain ⟨g, hg, hle, hxg⟩ := h.up x hx
      refine ⟨g, List.mem_cons_of_mem _ hg, ?_, hxg⟩
      rwa [holdStack g (h.path_subset g hg), holdStack x hx]

end Sound

/-! ## Leaving a module -/

/-- **What the lowest number of `v` stands for**, once the modules of
`scanned` are followed from `v`: it is the number of a module on the stack
that `v` reaches, and no edge followed from `v` or from above it leads
further down. -/
structure Scanned (d : Design) (v : String) (scanned : List String) (s : ComponentSearch) :
    Prop where
  le : s.lowest v ≤ s.number v
  attained : ∃ w ∈ s.stack, s.number w = s.lowest v ∧ d.Reaches v w
  bound : ∀ x ∈ s.stack, s.number v ≤ s.number x → ∀ w ∈ s.stack, d.Uses x w →
    (x = v → w ∈ scanned) → s.lowest v ≤ s.number w
  followed : ∀ w ∈ scanned, s.found w = true

namespace Sound

variable {scanned : List String}
variable (h : Sound d (v :: path) s) (hs : Scanned d v scanned s)
variable (hall : ∀ w, d.Uses v w → w ∈ scanned)
include h

theorem top_mem_stack : v ∈ s.stack := h.path_subset v List.mem_cons_self

theorem number_lt_top (hu : u ∈ path) : s.number u < s.number v :=
  (List.pairwise_cons.1 h.path_ordered).1 u hu

theorem number_le_top (hu : u ∈ v :: path) : s.number u ≤ s.number v := by
  rcases List.mem_cons.1 hu with rfl | hu
  · exact Nat.le_refl _
  · exact Nat.le_of_lt (h.number_lt_top hu)

/-- The whole path leads where its last module does: on the stack, earlier
modules reach the later ones. -/
theorem path_reaches (hvw : d.Uses v w) : ∀ u ∈ v :: path, d.Reaches u w := by
  intro u hu
  have huv := h.down u (h.path_subset u hu) v h.top_mem_stack (h.number_le_top hu)
  exact huv.trans hvw.reaches

/-- What is at or above a module of the stack has no lower number. -/
theorem mem_above_iff {top rest : List String} (hstack : s.stack = top ++ v :: rest) :
    w ∈ top ++ [v] ↔ w ∈ s.stack ∧ s.number v ≤ s.number w := by
  have hord := h.stack_ordered
  rw [hstack, List.pairwise_append, List.pairwise_cons] at hord
  obtain ⟨-, ⟨hrest, -⟩, htop⟩ := hord
  rw [hstack]
  constructor
  · intro hw
    rcases List.mem_append.1 hw with hw | hw
    · exact ⟨List.mem_append_left _ hw, Nat.le_of_lt (htop w hw v List.mem_cons_self)⟩
    · rw [List.mem_singleton.1 hw]
      exact ⟨List.mem_append_right _ List.mem_cons_self, Nat.le_refl _⟩
  · rintro ⟨hw, hle⟩
    rw [List.append_cons] at hw
    exact (List.mem_append.1 hw).resolve_right fun hw => Nat.not_lt.2 hle (hrest w hw)

/-- And what is below it has a lower one. -/
theorem mem_below_iff {top rest : List String} (hstack : s.stack = top ++ v :: rest) :
    w ∈ rest ↔ w ∈ s.stack ∧ s.number w < s.number v := by
  have hord := h.stack_ordered
  rw [hstack, List.pairwise_append, List.pairwise_cons] at hord
  constructor
  · intro hw
    rw [hstack]
    exact ⟨List.mem_append_right _ (List.mem_cons_of_mem _ hw), hord.2.1.1 w hw⟩
  · rintro ⟨hw, hlt⟩
    have hsplit := hw
    rw [hstack, List.append_cons] at hsplit
    refine (List.mem_append.1 hsplit).resolve_left fun habove => ?_
    exact Nat.not_le.2 hlt ((h.mem_above_iff hstack).1 habove).2

include hs hall

/-- Every edge from the stack at or above `v` is followed. -/
theorem followed_above (hu : u ∈ s.stack) (hle : s.number v ≤ s.number u) (huw : d.Uses u w) :
    s.found w = true := by
  by_cases huv : u = v
  · exact hs.followed w (hall w (huv ▸ huw))
  · refine h.followed u hu (fun hmem => ?_) w huw
    rcases List.mem_cons.1 hmem with huv' | hmem
    · exact huv huv'
    · exact absurd (h.number_lt_top hmem) (Nat.not_lt.2 hle)

/-- **Leaving a module that leads below itself.** The module stays on the
stack: it reaches a lower one, and through it the rest of the path. -/
theorem leave_open (hne : s.lowest v ≠ s.number v) : Sound d path s := by
  have hlt : s.lowest v < s.number v := Nat.lt_of_le_of_ne hs.le hne
  refine ⟨h.found_iff, h.disjoint, h.known, h.number_lt, h.onStack_iff, h.stack_ordered,
    (List.pairwise_cons.1 h.path_ordered).2, fun w hw => h.path_subset w (List.mem_cons_of_mem _ hw),
    ?_, h.down, ?_, h.nodup, h.component, h.closed⟩
  · intro x hx hxpath w hxw
    by_cases hxv : x = v
    · exact h.followed_above hs hall hx (Nat.le_of_eq (hxv ▸ rfl)) hxw
    · exact h.followed x hx (fun hmem => (List.mem_cons.1 hmem).elim hxv hxpath) w hxw
  · intro x hx
    obtain ⟨g, hg, hle, hxg⟩ := h.up x hx
    rcases List.mem_cons.1 hg with rfl | hg
    · -- the witness was `v` itself: go on to the module that its lowest number stands for
      obtain ⟨z, hz, hnum, hvz⟩ := hs.attained
      obtain ⟨g', hg', hle', hzg'⟩ := h.up z hz
      rcases List.mem_cons.1 hg' with rfl | hg'
      · omega
      · exact ⟨g', hg', by omega, hxg.trans (hvz.trans hzg')⟩
    · exact ⟨g, hg, hle, hxg⟩

variable (hroot : s.lowest v = s.number v)
include hroot

/-- No edge leads from above a root to below it. -/
theorem edge_above_root (hu : u ∈ s.stack) (hle : s.number v ≤ s.number u) (huw : d.Uses u w) :
    (w ∈ s.stack ∧ s.number v ≤ s.number w) ∨ w ∈ s.components.flatten := by
  rcases (h.found_iff w).1 (h.followed_above hs hall hu hle huw) with hw | hw
  · have hbound := hs.bound u hu hle w hw huw fun huv => hall w (huv ▸ huw)
    exact Or.inl ⟨hw, hroot ▸ hbound⟩
  · exact Or.inr hw

/-- And so no path. -/
theorem reaches_above_root (hu : u ∈ s.stack) (hle : s.number v ≤ s.number u)
    (huw : d.Reaches u w) :
    (w ∈ s.stack ∧ s.number v ≤ s.number w) ∨ w ∈ s.components.flatten := by
  refine huw.mem_of_closed
    (S := fun x => (x ∈ s.stack ∧ s.number v ≤ s.number x) ∨ x ∈ s.components.flatten) ?_
    (Or.inl ⟨hu, hle⟩)
  rintro x (⟨hx, hlex⟩ | hx) y hxy
  · exact h.edge_above_root hs hall hroot hx hlex hxy
  · exact Or.inr (h.reaches_closed hx hxy.reaches)

/-- **What lies at or above a root is its component.** -/
theorem together_root_iff : d.Together v w ↔ w ∈ s.stack ∧ s.number v ≤ s.number w := by
  have hv := h.top_mem_stack
  constructor
  · rintro ⟨hvw, hwv⟩
    rcases h.reaches_above_root hs hall hroot hv (Nat.le_refl _) hvw with hw | hw
    · exact hw
    · exact absurd (h.reaches_closed hw hwv) (h.disjoint v hv)
  · rintro ⟨hw, hle⟩
    refine ⟨h.down v hv w hw hle, ?_⟩
    obtain ⟨g, hg, -, hwg⟩ := h.up w hw
    rcases List.mem_cons.1 hg with rfl | hgpath
    · exact hwg
    · -- the rest of the path lies below the root, where nothing above it leads
      rcases h.reaches_above_root hs hall hroot hw hle hwg with ⟨-, hleg⟩ | hclosed
      · exact absurd (h.number_lt_top hgpath) (Nat.not_lt.2 hleg)
      · exact absurd hclosed (h.disjoint g (h.path_subset g hg))

/-- **Leaving a root closes its component.** -/
theorem leave_root {top rest : List String} (hstack : s.stack = top ++ v :: rest) :
    Sound d path (s.leave v) := by
  have habove : ∀ x, x ∈ top ++ [v] ↔ x ∈ s.stack ∧ s.number v ≤ s.number x :=
    fun _ => h.mem_above_iff hstack
  have hbelow : ∀ x, x ∈ rest ↔ x ∈ s.stack ∧ s.number x < s.number v :=
    fun _ => h.mem_below_iff hstack
  have hflat : (s.components ++ [(top ++ [v]).reverse]).flatten =
      s.components.flatten ++ (top ++ [v]).reverse := by simp
  have hmem : ∀ x, x ∈ (s.components ++ [(top ++ [v]).reverse]).flatten ↔
      x ∈ s.components.flatten ∨ x ∈ s.stack ∧ s.number v ≤ s.number x := by
    intro x
    rw [hflat, List.mem_append, List.mem_reverse, habove]
  have hnodup : (top ++ [v] ++ rest).Nodup := by
    rw [← List.append_cons, ← hstack]
    exact h.stack_nodup
  have hgroup : (top ++ [v]).Nodup := (List.nodup_append.1 hnodup).1
  rw [leave_of_eq hroot hstack (h.not_mem_above hstack)]
  refine ⟨?found_iff, ?disjoint, h.known, h.number_lt, ?onStack_iff, ?stack_ordered,
    (List.pairwise_cons.1 h.path_ordered).2, ?path_subset, ?followed, ?down, ?up, ?nodup,
    ?component, ?closed⟩
  case found_iff =>
    intro x
    have htotal := Nat.lt_or_ge (s.number x) (s.number v)
    change s.found x = true ↔ x ∈ rest ∨ x ∈ (s.components ++ [(top ++ [v]).reverse]).flatten
    rw [h.found_iff, hmem, hbelow]
    tauto
  case disjoint =>
    intro x hx hclosed
    obtain ⟨hxs, hlt⟩ := (hbelow x).1 hx
    rcases (hmem x).1 hclosed with hclosed | ⟨-, hle⟩
    · exact h.disjoint x hxs hclosed
    · exact Nat.not_le.2 hlt hle
  case onStack_iff =>
    intro x
    change (List.foldl _ s.onStack (top ++ [v])).contains x = true ↔ x ∈ rest
    rw [contains_foldl_erase, h.onStack_iff, habove, hbelow, ← Nat.not_le]
    tauto
  case stack_ordered =>
    have hord := h.stack_ordered
    rw [hstack, List.append_cons, List.pairwise_append] at hord
    exact hord.2.1
  case path_subset =>
    intro x hx
    exact (hbelow x).2 ⟨h.path_subset x (List.mem_cons_of_mem _ hx), h.number_lt_top hx⟩
  case followed =>
    intro x hx hxpath w hxw
    obtain ⟨hxs, hlt⟩ := (hbelow x).1 hx
    refine h.followed x hxs (fun hmem => ?_) w hxw
    rcases List.mem_cons.1 hmem with rfl | hmem
    · exact Nat.lt_irrefl _ hlt
    · exact hxpath hmem
  case down =>
    exact fun x hx y hy hle => h.down x ((hbelow x).1 hx).1 y ((hbelow y).1 hy).1 hle
  case up =>
    intro x hx
    obtain ⟨hxs, hlt⟩ := (hbelow x).1 hx
    obtain ⟨g, hg, hle, hxg⟩ := h.up x hxs
    rcases List.mem_cons.1 hg with rfl | hg
    · exact absurd hlt (Nat.not_lt.2 hle)
    · exact ⟨g, hg, hle, hxg⟩
  case nodup =>
    change (s.components ++ [(top ++ [v]).reverse]).flatten.Nodup
    rw [hflat, List.nodup_append, List.nodup_reverse]
    refine ⟨h.nodup, hgroup, fun x hx y hy e => ?_⟩
    exact h.disjoint y ((habove y).1 (List.mem_reverse.1 hy)).1 (e ▸ hx)
  case component =>
    intro c hc
    rcases List.mem_append.1 hc with hc | hc
    · exact h.component c hc
    · rw [List.mem_singleton.1 hc]
      refine ⟨v, h.known v (h.found_of_stack h.top_mem_stack), fun x => ?_⟩
      rw [List.mem_toFinset, List.mem_reverse, habove, h.together_root_iff hs hall hroot]
  case closed =>
    -- only the whole list is a new prefix, and no edge leaves what was above the root
    intro cs hcs x hx y hxy
    rcases List.prefix_concat_iff.1 hcs with rfl | hcs
    · rw [hmem] at hx ⊢
      rcases hx with hx | ⟨hxs, hle⟩
      · exact Or.inl (h.closed _ (List.prefix_refl _) x hx y hxy)
      · exact (h.edge_above_root hs hall hroot hxs hle hxy).symm
    · exact h.closed cs hcs x hx y hxy

end Sound

/-! ## What a search leaves as it was -/

/-- Later states keep the numbers given, and add on top of the stack and
at the end of the components. -/
structure Grows (s t : ComponentSearch) : Prop where
  found : ∀ v, s.found v = true → t.found v = true
  number : ∀ v, s.found v = true → t.number v = s.number v
  fresh : ∀ v, t.found v = true → s.found v = false → s.counter ≤ t.number v
  counter : s.counter ≤ t.counter
  stack : s.stack <:+ t.stack
  components : s.components <+: t.components

namespace Grows

theorem refl (s : ComponentSearch) : Grows s s :=
  ⟨fun _ hv => hv, fun _ _ => rfl, fun _ hv hnew => by simp [hv] at hnew, Nat.le_refl _,
    List.suffix_refl _, List.prefix_refl _⟩

theorem trans {r : ComponentSearch} (h : Grows r s) (h' : Grows s t) : Grows r t := by
  refine ⟨fun v hv => h'.found v (h.found v hv),
    fun v hv => (h'.number v (h.found v hv)).trans (h.number v hv), fun v hv hnew => ?_,
    h.counter.trans h'.counter, h.stack.trans h'.stack, h.components.trans h'.components⟩
  by_cases hs : s.found v = true
  · rw [h'.number v hs]
    exact h.fresh v hs hnew
  · exact h.counter.trans (h'.fresh v hv (Bool.not_eq_true _ ▸ hs))

theorem enter (hnew : s.found v = false) : Grows s (s.enter v) := by
  have hne : ∀ w, s.found w = true → v ≠ w := by
    rintro w hw rfl
    simp [hnew] at hw
  refine ⟨fun w hw => found_enter.2 (Or.inr hw), fun w hw => ?_, fun w hw hneww => ?_,
    Nat.le_succ _, List.suffix_cons _ _, List.prefix_refl _⟩
  · rw [number_enter, if_neg (hne w hw)]
  · rcases found_enter.1 hw with rfl | hw
    · rw [number_enter, if_pos rfl]
    · simp [hw] at hneww

theorem lower (s : ComponentSearch) (v : String) (n : ℕ) : Grows s (s.lower v n) :=
  ⟨(refl s).found, (refl s).number, (refl s).fresh, Nat.le_refl _, List.suffix_refl _,
    List.prefix_refl _⟩

/-- What was found and is still on the stack was on the stack. -/
theorem mem_stack (h : Grows s t) (hs : Sound d path s) (ht : Sound d path t)
    (hv : v ∈ t.stack) (hfound : s.found v = true) : v ∈ s.stack := by
  rcases (hs.found_iff v).1 hfound with hmem | hmem
  · exact hmem
  · obtain ⟨more, hmore⟩ := h.components
    refine absurd ?_ (ht.disjoint v hv)
    rw [← hmore, List.flatten_append]
    exact List.mem_append_left _ hmem

end Grows

end ComponentSearch

namespace Design

/-- The number of modules that a search has not found. -/
def unfound (d : Design) (s : ComponentSearch) : ℕ :=
  (d.keys.filter fun v => !s.found v).length

theorem unfound_le {d : Design} {s t : ComponentSearch} (h : s.Grows t) :
    d.unfound t ≤ d.unfound s := by
  refine (List.monotone_filter_right _ fun v hv => ?_).length_le
  rw [Bool.not_eq_true'] at hv ⊢
  by_contra hs
  rw [Bool.not_eq_false] at hs
  simp [h.found v hs] at hv

theorem unfound_le_size (d : Design) (s : ComponentSearch) : d.unfound s ≤ d.size := by
  rw [unfound, OrderedMap.size, ← List.length_map Prod.fst]
  exact List.length_filter_le _ _

/-- Entering a module leaves fewer to find. -/
theorem unfound_enter_lt {d : Design} {s : ComponentSearch} {v : String} (hv : v ∈ d.keys)
    (hnew : s.found v = false) : d.unfound (s.enter v) < d.unfound s := by
  refine length_filter_lt (fun w hw => ?_) hv ?_ (by simp [hnew])
  · rw [Bool.not_eq_true'] at hw ⊢
    by_contra hs
    rw [Bool.not_eq_false] at hs
    simp [ComponentSearch.found_enter.2 (Or.inr hs)] at hw
  · simp [ComponentSearch.found_enter.2 (Or.inl rfl)]

end Design

namespace ComponentSearch

variable {d : Design} {s t : ComponentSearch} {path scanned : List String} {v w : String}

/-! ## One search -/

/-- **What a search from `v` gives**, where `s` is the state before it and
`t` the one after: the path is as it was, and the lowest number of `v`
bounds every edge from what is new on the stack. -/
structure Searched (d : Design) (path : List String) (v : String) (s t : ComponentSearch) :
    Prop where
  sound : Sound d path t
  grows : Grows s t
  found : t.found v = true
  lowest_eq : ∀ u, s.found u = true → t.lowest u = s.lowest u
  bound : ∀ x ∈ t.stack, s.found x = false → ∀ w ∈ t.stack, d.Uses x w → t.lowest v ≤ t.number w
  /-- A closed component leaves no number below those given before. -/
  attained : (∃ w ∈ t.stack, t.number w = t.lowest v ∧ d.Reaches v w) ∨ s.counter ≤ t.lowest v

/-- A function that searches correctly from every module not found yet, as
long as no more than `depth` modules are left to find. -/
def Searches (d : Design) (depth : ℕ) (visit : ComponentSearch → String → ComponentSearch) :
    Prop :=
  ∀ path s v, Sound d path s → s.found v = false → v ∈ d.keys →
    (∀ u ∈ path, d.Reaches u v) → d.unfound s ≤ depth → Searched d path v s (visit s v)

/-- **Following an instance to a module found before.** -/
theorem Scanned.follow_found (h : Sound d (v :: path) s) (hs : Scanned d v scanned s)
    (hvw : d.Uses v w) (hw : s.found w = true) :
    Scanned d v (scanned ++ [w])
      (if s.onStack.contains w then s.lower v (s.number w) else s) := by
  have hfollowed : ∀ x ∈ scanned ++ [w], s.found x = true := by
    intro x hx
    rcases List.mem_append.1 hx with hx | hx
    · exact hs.followed x hx
    · rw [List.mem_singleton.1 hx]
      exact hw
  by_cases hon : s.onStack.contains w = true
  · have hlow : (s.lower v (s.number w)).lowest v = min (s.lowest v) (s.number w) := by
      rw [lowest_lower, if_pos rfl]
    rw [if_pos hon]
    refine ⟨?_, ?_, fun x hx hle y hy hxy hscan => ?_, hfollowed⟩
    · rw [hlow]
      exact (Nat.min_le_left _ _).trans hs.le
    · rw [hlow]
      rcases Nat.le_total (s.lowest v) (s.number w) with hle | hle
      · rw [Nat.min_eq_left hle]
        exact hs.attained
      · rw [Nat.min_eq_right hle]
        exact ⟨w, (h.onStack_iff w).1 hon, rfl, hvw.reaches⟩
    · rw [hlow]
      by_cases hyw : y = w
      · exact (Nat.min_le_right _ _).trans (Nat.le_of_eq (hyw ▸ rfl))
      · refine (Nat.min_le_left _ _).trans (hs.bound x hx hle y hy hxy fun hxv => ?_)
        exact (List.mem_append.1 (hscan hxv)).resolve_right fun hy' =>
          hyw (List.mem_singleton.1 hy')
  · rw [if_neg hon]
    refine ⟨hs.le, hs.attained, fun x hx hle y hy hxy hscan => ?_, hfollowed⟩
    refine hs.bound x hx hle y hy hxy fun hxv => (List.mem_append.1 (hscan hxv)).resolve_right ?_
    intro hy'
    exact hon ((h.onStack_iff w).2 (List.mem_singleton.1 hy' ▸ hy))

/-- **Following an instance to a new module.** -/
theorem Scanned.follow_new (h : Sound d (v :: path) s) (hs : Scanned d v scanned s)
    (hvw : d.Uses v w) (hw : s.found w = false) (ht : Searched d (v :: path) w s t) :
    Scanned d v (scanned ++ [w]) (t.lower v (t.lowest w)) := by
  have hv : s.found v = true := h.found_of_stack h.top_mem_stack
  have hnumv : t.number v = s.number v := ht.grows.number v hv
  have hlow : (t.lower v (t.lowest w)).lowest v = min (s.lowest v) (t.lowest w) := by
    rw [lowest_lower, if_pos rfl, ht.lowest_eq v hv]
  refine ⟨?_, ?_, fun x hx hle y hy hxy hscan => ?_, fun x hx => ?_⟩
  · rw [hlow]
    exact (Nat.min_le_left _ _).trans (hs.le.trans (Nat.le_of_eq hnumv.symm))
  · rw [hlow]
    rcases Nat.lt_or_ge (t.lowest w) (s.lowest v) with hlt | hle
    · rw [Nat.min_eq_right (Nat.le_of_lt hlt)]
      rcases ht.attained with ⟨z, hz, hnum, hwz⟩ | hbig
      · exact ⟨z, hz, hnum, hvw.reaches.trans hwz⟩
      · have := h.number_lt v hv
        have := hs.le
        omega
    · rw [Nat.min_eq_left hle]
      obtain ⟨z, hz, hnum, hvz⟩ := hs.attained
      refine ⟨z, ht.grows.stack.subset hz, ?_, hvz⟩
      exact (ht.grows.number z (h.found_of_stack hz)).trans hnum
  · change x ∈ t.stack at hx
    change y ∈ t.stack at hy
    change t.number v ≤ t.number x at hle
    change _ ≤ t.number y
    rw [hlow]
    by_cases hxnew : s.found x = false
    · exact (Nat.min_le_right _ _).trans (ht.bound x hx hxnew y hy hxy)
    · rw [Bool.not_eq_false] at hxnew
      have hxs : x ∈ s.stack := ht.grows.mem_stack h ht.sound hx hxnew
      have hle' : s.number v ≤ s.number x := by
        rwa [hnumv, ht.grows.number x hxnew] at hle
      refine (Nat.min_le_left _ _).trans ?_
      by_cases hynew : s.found y = false
      · -- only the module that was just followed is new, and its number is high
        have hfresh := ht.grows.fresh y (ht.sound.found_of_stack hy) hynew
        have hlt := h.number_lt v hv
        exact hs.le.trans ((Nat.le_of_lt hlt).trans hfresh)
      · rw [Bool.not_eq_false] at hynew
        have hys : y ∈ s.stack := ht.grows.mem_stack h ht.sound hy hynew
        rw [ht.grows.number y hynew]
        refine hs.bound x hxs hle' y hys hxy fun hxv => ?_
        refine (List.mem_append.1 (hscan hxv)).resolve_right fun hyw => ?_
        rw [List.mem_singleton.1 hyw, hw] at hynew
        exact absurd hynew Bool.false_ne_true
  · rcases List.mem_append.1 hx with hx | hx
    · exact ht.grows.found x (hs.followed x hx)
    · rw [List.mem_singleton.1 hx]
      exact ht.found

/-- What following the instances `scanned` of `v` gives, where `s` is the
state before them and `t` the one after. -/
structure Followed (d : Design) (path : List String) (v : String) (scanned : List String)
    (s t : ComponentSearch) : Prop where
  sound : Sound d (v :: path) t
  scanned : Scanned d v scanned t
  grows : Grows s t
  lowest_eq : ∀ u, s.found u = true → u ≠ v → t.lowest u = s.lowest u

/-- The instances of a module just entered are all still to follow. -/
theorem Followed.enter (h : Sound d path s) (hnew : s.found v = false) (hv : v ∈ d.keys)
    (hpath : ∀ u ∈ path, d.Reaches u v) : Followed d path v [] (s.enter v) (s.enter v) := by
  have hnum : (s.enter v).number v = s.counter := by rw [number_enter, if_pos rfl]
  have hlow : (s.enter v).lowest v = s.counter := by rw [lowest_enter, if_pos rfl]
  have hsound := h.enter hnew hv hpath
  refine ⟨hsound, ⟨by rw [hnum, hlow], ?_, fun x hx hle w _ _ hscan => ?_, by simp⟩, Grows.refl _,
    fun _ _ _ => rfl⟩
  · exact ⟨v, hsound.top_mem_stack, by rw [hnum, hlow], Design.Reaches.refl d v⟩
  · -- nothing but `v` has a number as high as that of `v`
    rcases List.mem_cons.1 hx with rfl | hx
    · exact absurd (hscan rfl) List.not_mem_nil
    · have hlt := (List.pairwise_cons.1 hsound.stack_ordered).1 x hx
      exact absurd hlt (Nat.not_lt.2 hle)

variable {depth : ℕ} {visit : ComponentSearch → String → ComponentSearch}

/-- **One instance.** -/
theorem Followed.step (hvisit : Searches d depth visit) (h : Followed d path v scanned s t)
    (hvw : d.Uses v w) (hdepth : d.unfound s ≤ depth) :
    Followed d path v (scanned ++ [w]) s (follow visit v t w) := by
  by_cases hw : t.found w = true
  · have hscanned := h.scanned.follow_found h.sound hvw hw
    rw [follow, if_pos hw]
    split
    · rename_i hon
      rw [if_pos hon] at hscanned
      refine ⟨h.sound.lower, hscanned, h.grows.trans (Grows.lower ..), fun u hu huv => ?_⟩
      rw [lowest_lower, if_neg huv.symm, h.lowest_eq u hu huv]
    · rename_i hon
      rw [if_neg hon] at hscanned
      exact ⟨h.sound, hscanned, h.grows, h.lowest_eq⟩
  · have hwnew : t.found w = false := Bool.not_eq_true _ ▸ hw
    have hsearched := hvisit (v :: path) t w h.sound hwnew hvw.target_mem
      (h.sound.path_reaches hvw) ((Design.unfound_le h.grows).trans hdepth)
    rw [follow, if_neg hw]
    refine ⟨hsearched.sound.lower, h.scanned.follow_new h.sound hvw hwnew hsearched,
      (h.grows.trans hsearched.grows).trans (Grows.lower ..), fun u hu huv => ?_⟩
    rw [lowest_lower, if_neg huv.symm, hsearched.lowest_eq u (h.grows.found u hu),
      h.lowest_eq u hu huv]

/-- **All instances**, one after the other. -/
theorem Followed.foldl (hvisit : Searches d depth visit) (h : Followed d path v scanned s t)
    (ws : List String) (hws : ∀ w ∈ ws, d.Uses v w) (hdepth : d.unfound s ≤ depth) :
    Followed d path v (scanned ++ ws) s (ws.foldl (follow visit v) t) := by
  induction ws generalizing scanned t with
  | nil => simpa using h
  | cons w ws ih =>
    rw [List.foldl_cons, List.append_cons]
    exact ih (h.step hvisit (hws w List.mem_cons_self) hdepth)
      fun x hx => hws x (List.mem_cons_of_mem _ hx)

/-- **Leaving the module**, after all its instances. -/
theorem Followed.leave (hbefore : Sound d path s) (hnew : s.found v = false)
    (h : Followed d path v scanned (s.enter v) t) (hall : ∀ w, d.Uses v w → w ∈ scanned) :
    Searched d path v s (t.leave v) := by
  have hgrows : Grows s t := (Grows.enter hnew).trans h.grows
  have hself : (s.enter v).found v = true := found_enter.2 (Or.inl rfl)
  have hfound : t.found v = true := h.grows.found v hself
  have hnum : t.number v = s.counter := by
    rw [h.grows.number v hself, number_enter, if_pos rfl]
  have hlowest : ∀ u, s.found u = true → t.lowest u = s.lowest u := by
    intro u hu
    have huv : v ≠ u := by
      rintro rfl
      simp [hnew] at hu
    rw [h.lowest_eq u (found_enter.2 (Or.inr hu)) huv.symm, lowest_enter, if_neg huv]
  by_cases hroot : t.lowest v = t.number v
  · -- what was on the stack before `v` is what is left below it
    obtain ⟨top, htop⟩ := h.grows.stack
    have hstack : t.stack = top ++ v :: s.stack := htop.symm
    have hsound := h.sound.leave_root h.scanned hall hroot hstack
    rw [leave_of_eq hroot hstack (h.sound.not_mem_above hstack)] at hsound ⊢
    refine ⟨hsound, ⟨hgrows.found, hgrows.number, hgrows.fresh, hgrows.counter, List.suffix_refl _,
      hgrows.components.trans (List.prefix_append _ _)⟩, hfound, hlowest, fun x hx hxnew => ?_,
      Or.inr (Nat.le_of_eq (hnum.symm.trans hroot.symm))⟩
    have hxfound := hbefore.found_of_stack hx
    rw [hxnew] at hxfound
    exact absurd hxfound Bool.false_ne_true
  · have hsound := h.sound.leave_open h.scanned hall hroot
    rw [leave_of_ne hroot]
    refine ⟨hsound, hgrows, hfound, hlowest, fun x hx hxnew w hw hxw => ?_,
      Or.inl h.scanned.attained⟩
    have hfresh := hgrows.fresh x (hsound.found_of_stack hx) hxnew
    exact h.scanned.bound x hx (hnum ▸ hfresh) w hw hxw fun hxv => hall w (hxv ▸ hxw)

/-- **A search as deep as there are modules left to find is correct.** -/
theorem visit_spec (d : Design) : ∀ depth, Searches d depth (ComponentSearch.visit d.uses depth) := by
  intro depth
  induction depth with
  | zero =>
    intro path s v _ hnew hv _ hdepth
    have := Design.unfound_enter_lt hv hnew
    omega
  | succ depth ih =>
    intro path s v h hnew hv hpath hdepth
    have hlt := Design.unfound_enter_lt hv hnew
    have hall := (Followed.enter h hnew hv hpath).foldl ih (d.uses v)
      (fun w hw => Design.mem_uses.1 hw) (by omega)
    exact hall.leave h hnew fun w hvw => List.mem_append_right _ (Design.mem_uses.2 hvw)

end ComponentSearch

/-! ## The whole search -/

namespace Design

/-- The search as deep as the design is large finds every module that it
starts from, and leaves no component open. -/
theorem searchAll_spec (d : Design) (names : List String) {s : ComponentSearch}
    (h : ComponentSearch.Sound d [] s) (hnames : ∀ v ∈ names, v ∈ d.keys) :
    ComponentSearch.Sound d [] (d.searchAll s names) ∧
      ComponentSearch.Grows s (d.searchAll s names) ∧
      ∀ v ∈ names, (d.searchAll s names).found v = true := by
  induction names generalizing s with
  | nil => exact ⟨h, ComponentSearch.Grows.refl s, by simp⟩
  | cons v names ih =>
    have hv : v ∈ d.keys := hnames v List.mem_cons_self
    have hrest : ∀ w ∈ names, w ∈ d.keys := fun w hw => hnames w (List.mem_cons_of_mem _ hw)
    -- the first module is found already, or the search from it finds it
    obtain ⟨t, ht, hsound, hgrows, hfound⟩ : ∃ t,
        d.searchAll s (v :: names) = d.searchAll t names ∧ ComponentSearch.Sound d [] t ∧
          ComponentSearch.Grows s t ∧ t.found v = true := by
      by_cases hnew : s.found v = true
      · exact ⟨s, by rw [searchAll, List.foldl_cons, if_pos hnew]; rfl, h,
          ComponentSearch.Grows.refl s, hnew⟩
      · have hsearched := ComponentSearch.visit_spec d d.size [] s v h
          (Bool.not_eq_true _ ▸ hnew) hv (by simp) (d.unfound_le_size s)
        exact ⟨_, by rw [searchAll, List.foldl_cons, if_neg hnew]; rfl, hsearched.sound,
          hsearched.grows, hsearched.found⟩
    obtain ⟨hsound', hgrows', hfound'⟩ := ih hsound hrest
    rw [ht]
    refine ⟨hsound', hgrows.trans hgrows', fun w hw => ?_⟩
    rcases List.mem_cons.1 hw with rfl | hw
    · exact hgrows'.found w hfound
    · exact hfound' w hw

variable {d : Design} {v : String} {c : List String}

theorem search_sound (d : Design) :
    ComponentSearch.Sound d [] (d.searchAll .start d.keys) :=
  (d.searchAll_spec d.keys (ComponentSearch.sound_start d) fun _ hv => hv).1

theorem search_found (d : Design) : ∀ v ∈ d.keys, (d.searchAll .start d.keys).found v = true :=
  (d.searchAll_spec d.keys (ComponentSearch.sound_start d) fun _ hv => hv).2.2

/-- **The components hold each module once.** -/
theorem mem_components_flatten : v ∈ d.components.flatten ↔ v ∈ d.keys := by
  have hsound := d.search_sound
  constructor
  · exact fun hv => hsound.known v ((hsound.found_iff v).2 (Or.inr hv))
  · intro hv
    rcases (hsound.found_iff v).1 (d.search_found v hv) with hstack | hmem
    · rw [hsound.stack_eq_nil rfl] at hstack
      exact absurd hstack List.not_mem_nil
    · exact hmem

theorem nodup_components_flatten (d : Design) : d.components.flatten.Nodup :=
  d.search_sound.nodup

/-- **Each of them is a component of the graph.** -/
theorem isComponent_of_mem (hc : c ∈ d.components) : d.IsComponent c.toFinset :=
  d.search_sound.component c hc

/-- No edge leads from a component to a later one. -/
theorem components_closed {cs : List (List String)} (hcs : cs <+: d.components) {w : String}
    (hv : v ∈ cs.flatten) (hvw : d.Uses v w) : w ∈ cs.flatten :=
  d.search_sound.closed cs hcs v hv w hvw

end Design

end DesignAtlas
