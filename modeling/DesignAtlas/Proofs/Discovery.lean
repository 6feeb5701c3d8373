import DesignAtlas.Proofs.Cycles

/-!
# The order of the groups and of their members

`Design.discovery` lists the modules in the order in which a depth-first walk
comes to them, with a frontier and without the numbers, the stack and the
closed components of the search. The search finds the modules in this order
(`Traced`): its stack, from the bottom, and every component that it closes
are parts of the list.

The path matters for one thing. What stands on the stack above a module of
the path was found by going down from that module, so it is instantiated by
something that stands no lower (`Traced.led`). When a component is closed its
root is the last of the path, and so each member but the root is instantiated
by one found before it.
-/

namespace DesignAtlas

namespace Design

variable {d : Design} {seen frontier : List String} {v : String}

/-! ## Discovery, depth first -/

/-- **The modules in order of discovery**, after those seen already. The
first name of the frontier is listed if it is known and new, and the modules
that it uses come before what is left. -/
def discover (d : Design) (seen : List String) : List String → List String
  | [] => seen
  | v :: frontier =>
    if _h : v ∈ d.keys ∧ v ∉ seen then d.discover (seen ++ [v]) (d.uses v ++ frontier)
    else d.discover seen frontier
termination_by frontier => (d.unseen seen, frontier.length)
decreasing_by
  · exact Prod.Lex.left _ _ (unseen_lt _h.1 _h.2)
  · exact Prod.Lex.right _ (Nat.lt_succ_self _)

/-- The modules of a design in order of discovery. -/
def discovery (d : Design) : List String := d.discover [] d.keys

theorem discover_nil (d : Design) (seen : List String) : d.discover seen [] = seen := by
  rw [discover]

theorem discover_new (hk : v ∈ d.keys) (hnew : v ∉ seen) :
    d.discover seen (v :: frontier) = d.discover (seen ++ [v]) (d.uses v ++ frontier) := by
  rw [discover, dif_pos ⟨hk, hnew⟩]

theorem discover_seen (hseen : v ∈ seen) :
    d.discover seen (v :: frontier) = d.discover seen frontier := by
  rw [discover, dif_neg fun h => h.2 hseen]

theorem nodup_discover (hseen : seen.Nodup) : (d.discover seen frontier).Nodup := by
  fun_induction discover d seen frontier with
  | case1 seen => exact hseen
  | case2 seen v frontier h ih =>
    refine ih (List.nodup_append.2 ⟨hseen, List.nodup_singleton _, fun a ha b hb e => h.2 ?_⟩)
    rwa [← List.mem_singleton.1 hb, ← e]
  | case3 seen v frontier h ih => exact ih hseen

theorem nodup_discovery (d : Design) : d.discovery.Nodup := nodup_discover List.nodup_nil

/-- **Members in the order in which they are found**: they are a part of what
is seen, in its order, and each but the first is instantiated by one before
it. -/
structure Discovered (d : Design) (seen members : List String) : Prop where
  sublist : members.Sublist seen
  led : ∀ before w after, members = before ++ w :: after → before ≠ [] → ∃ u ∈ before, d.Uses u w

end Design

namespace ComponentSearch

variable {d : Design} {s t : ComponentSearch} {path seen scanned : List String} {v w : String}

/-! ## The search follows the order of discovery -/

/-- **How the search stands to the modules seen so far**, while the modules
of `path` are entered and not left. -/
structure Traced (d : Design) (path seen : List String) (s : ComponentSearch) : Prop where
  found_iff : ∀ v, s.found v = true ↔ v ∈ seen
  number_eq : ∀ v ∈ seen, s.number v = seen.idxOf v
  counter_eq : s.counter = seen.length
  stack_sublist : s.stack.reverse.Sublist seen
  /-- What stands above a module of the path is instantiated from there. -/
  led : ∀ g ∈ path, ∀ w ∈ s.stack, s.number g < s.number w →
    ∃ u ∈ s.stack, s.number g ≤ s.number u ∧ s.number u < s.number w ∧ d.Uses u w
  listed : ∀ c ∈ s.components, d.Discovered seen c

theorem traced_start (d : Design) : Traced d [] [] start := by
  constructor <;> simp [start, found]

namespace Traced

variable (h : Traced d path seen s)
include h

theorem not_seen (hnew : s.found v = false) : v ∉ seen := by
  intro hv
  rw [(h.found_iff v).2 hv] at hnew
  cases hnew

theorem lower {n : ℕ} : Traced d path seen (s.lower v n) :=
  ⟨h.found_iff, h.number_eq, h.counter_eq, h.stack_sublist, h.led, h.listed⟩

/-- What stands above a module of the path, once a module is entered. The new
one is used by the last of the path, which stands above the rest of it. -/
theorem led_enter (hsound : Sound d path s) (hnew : s.found v = false)
    (hhead : ∀ u ∈ path.head?, d.Uses u v) {g : String} (hg : g ∈ v :: path)
    (hw : w ∈ v :: s.stack) (hgw : (s.enter v).number g < (s.enter v).number w) :
    ∃ u ∈ v :: s.stack, (s.enter v).number g ≤ (s.enter v).number u ∧
      (s.enter v).number u < (s.enter v).number w ∧ d.Uses u w := by
  have hself : (s.enter v).number v = s.counter := by rw [number_enter, if_pos rfl]
  have hold : ∀ x ∈ s.stack, (s.enter v).number x = s.number x :=
    fun x hx => (Grows.enter hnew).number x (hsound.found_of_stack hx)
  have hlt : ∀ x ∈ s.stack, s.number x < s.counter :=
    fun x hx => hsound.number_lt x (hsound.found_of_stack hx)
  rcases List.mem_cons.1 hg with rfl | hgpath
  · -- nothing has a higher number than the new module
    rcases List.mem_cons.1 hw with rfl | hws
    · exact absurd hgw (Nat.lt_irrefl _)
    · rw [hself, hold w hws] at hgw
      exact absurd (hlt w hws) (Nat.lt_asymm hgw)
  · have hgs : g ∈ s.stack := hsound.path_subset g hgpath
    rcases List.mem_cons.1 hw with rfl | hws
    · obtain ⟨u, rest, rfl⟩ := List.exists_cons_of_ne_nil (List.ne_nil_of_mem hgpath)
      have hu : u ∈ s.stack := hsound.path_subset u List.mem_cons_self
      refine ⟨u, List.mem_cons_of_mem _ hu, ?_, ?_, hhead u rfl⟩
      · rw [hold g hgs, hold u hu]
        exact hsound.number_le_top hgpath
      · rw [hold u hu, hself]
        exact hlt u hu
    · rw [hold g hgs, hold w hws] at hgw
      obtain ⟨u, hu, hgu, huw, huses⟩ := h.led g hgpath w hws hgw
      refine ⟨u, List.mem_cons_of_mem _ hu, ?_, ?_, huses⟩
      · rwa [hold g hgs, hold u hu]
      · rwa [hold u hu, hold w hws]

/-- **Entering a module that the last of the path uses.** -/
theorem enter (hsound : Sound d path s) (hnew : s.found v = false)
    (hhead : ∀ u ∈ path.head?, d.Uses u v) : Traced d (v :: path) (seen ++ [v]) (s.enter v) := by
  refine ⟨?found_iff, ?number_eq, ?counter_eq, ?stack_sublist,
    fun g hg w hw => h.led_enter hsound hnew hhead hg hw, ?listed⟩
  case found_iff =>
    intro w
    rw [found_enter, h.found_iff, List.mem_append, List.mem_singleton, or_comm, eq_comm]
  case number_eq =>
    intro w hw
    rcases List.mem_append.1 hw with hw | hw
    · have hold := (Grows.enter hnew).number w ((h.found_iff w).2 hw)
      rw [hold, h.number_eq w hw, List.idxOf_append_of_mem hw]
    · rw [List.mem_singleton.1 hw, number_enter, if_pos rfl, h.counter_eq,
        List.idxOf_append_of_notMem (h.not_seen hnew), List.idxOf_cons_self, Nat.add_zero]
  case counter_eq =>
    rw [List.length_append, List.length_singleton, ← h.counter_eq]
    rfl
  case stack_sublist =>
    change (v :: s.stack).reverse.Sublist (seen ++ [v])
    rw [List.reverse_cons]
    exact h.stack_sublist.append_right [v]
  case listed =>
    intro c hc
    exact ⟨(h.listed c hc).sublist.trans (List.sublist_append_left _ _), (h.listed c hc).led⟩

end Traced

/-! ## Leaving a module -/

/-- **What is closed is in order of discovery.** Below the module left there
is no number as high as its own, so whatever leads to a member from no lower
than the module is a member too, and an earlier one. -/
theorem Traced.discovered_above (h : Traced d (v :: path) seen s)
    (hsound : Sound d (v :: path) s) {top rest : List String} (hstack : s.stack = top ++ v :: rest) :
    d.Discovered seen (top ++ [v]).reverse := by
  have hsplit : s.stack = top ++ [v] ++ rest := by rw [hstack, List.append_cons]
  have hordered : (top ++ [v]).reverse.Pairwise fun a b => s.number a < s.number b := by
    have hord := hsound.stack_ordered
    rw [hsplit, List.pairwise_append] at hord
    exact List.pairwise_reverse.2 hord.1
  have habove : ∀ x, x ∈ (top ++ [v]).reverse ↔ x ∈ s.stack ∧ s.number v ≤ s.number x := by
    intro x
    rw [List.mem_reverse, hsound.mem_above_iff hstack]
  refine ⟨?_, fun before w after hmembers hbefore => ?_⟩
  · have hreverse := h.stack_sublist
    rw [hsplit, List.reverse_append] at hreverse
    exact (List.sublist_append_right _ _).trans hreverse
  · rw [hmembers] at hordered habove
    obtain ⟨-, htail, hcross⟩ := List.pairwise_append.1 hordered
    -- something comes before `w`, so `w` is not the module left
    obtain ⟨x, hx⟩ := List.exists_mem_of_ne_nil before hbefore
    have hvx : s.number v ≤ s.number x := ((habove x).1 (List.mem_append_left _ hx)).2
    have hxw : s.number x < s.number w := hcross x hx w List.mem_cons_self
    have hw : w ∈ s.stack := ((habove w).1 (List.mem_append_right _ List.mem_cons_self)).1
    obtain ⟨u, hu, hvu, huw, huses⟩ := h.led v List.mem_cons_self w hw (Nat.lt_of_le_of_lt hvx hxw)
    refine ⟨u, ?_, huses⟩
    rcases List.mem_append.1 ((habove u).2 ⟨hu, hvu⟩) with hu | hu
    · exact hu
    · rcases List.mem_cons.1 hu with rfl | hu
      · exact absurd huw (Nat.lt_irrefl _)
      · exact absurd ((List.pairwise_cons.1 htail).1 u hu) (Nat.lt_asymm huw)

/-- **Leaving a module**, whether its component is closed or stays open. -/
theorem Traced.leave (h : Traced d (v :: path) seen s) (hsound : Sound d (v :: path) s) :
    Traced d path seen (s.leave v) := by
  have hled : ∀ g ∈ path, ∀ w ∈ s.stack, s.number g < s.number w →
      ∃ u ∈ s.stack, s.number g ≤ s.number u ∧ s.number u < s.number w ∧ d.Uses u w :=
    fun g hg => h.led g (List.mem_cons_of_mem _ hg)
  by_cases hroot : s.lowest v = s.number v
  · obtain ⟨top, rest, hstack⟩ := List.append_of_mem hsound.top_mem_stack
    have hbelow : ∀ x, x ∈ rest ↔ x ∈ s.stack ∧ s.number x < s.number v :=
      fun _ => hsound.mem_below_iff hstack
    rw [leave_of_eq hroot hstack (hsound.not_mem_above hstack)]
    refine ⟨h.found_iff, h.number_eq, h.counter_eq, ?_, fun g hg w hw hgw => ?_, fun c hc => ?_⟩
    · have hreverse := h.stack_sublist
      rw [hstack, List.append_cons, List.reverse_append] at hreverse
      exact (List.sublist_append_left _ _).trans hreverse
    · obtain ⟨hws, hwv⟩ := (hbelow w).1 hw
      obtain ⟨u, hu, hgu, huw, huses⟩ := hled g hg w hws hgw
      exact ⟨u, (hbelow u).2 ⟨hu, Nat.lt_trans huw hwv⟩, hgu, huw, huses⟩
    · rcases List.mem_append.1 hc with hc | hc
      · exact h.listed c hc
      · rw [List.mem_singleton.1 hc]
        exact h.discovered_above hsound hstack
  · rw [leave_of_ne hroot]
    exact ⟨h.found_iff, h.number_eq, h.counter_eq, h.stack_sublist, hled, h.listed⟩

/-! ## One search -/

/-- A function that searches from every module not found yet in the order of
discovery, as long as no more than `depth` modules are left to find. What it
finds is what discovery lists before it goes on with the frontier. -/
def Traces (d : Design) (depth : ℕ) (visit : ComponentSearch → String → ComponentSearch) : Prop :=
  ∀ path seen s v, Sound d path s → Traced d path seen s → s.found v = false → v ∈ d.keys →
    (∀ u ∈ path.head?, d.Uses u v) → d.unfound s ≤ depth →
    ∃ seen', Traced d path seen' (visit s v) ∧
      ∀ frontier, d.discover seen (v :: frontier) = d.discover seen' frontier

variable {depth : ℕ} {visit : ComponentSearch → String → ComponentSearch}

/-- **One instance.** -/
theorem Traced.follow (hvisit : Traces d depth visit) (h : Traced d (v :: path) seen t)
    (hsound : Sound d (v :: path) t) (hvw : d.Uses v w) (hdepth : d.unfound t ≤ depth) :
    ∃ seen', Traced d (v :: path) seen' (follow visit v t w) ∧
      ∀ frontier, d.discover seen (w :: frontier) = d.discover seen' frontier := by
  rw [ComponentSearch.follow]
  by_cases hw : t.found w = true
  · rw [if_pos hw]
    refine ⟨seen, ?_, fun frontier => Design.discover_seen ((h.found_iff w).1 hw)⟩
    split
    · exact h.lower
    · exact h
  · rw [if_neg hw]
    have hhead : ∀ u ∈ (v :: path).head?, d.Uses u w := by
      intro u hu
      obtain rfl : v = u := Option.some.inj hu
      exact hvw
    obtain ⟨seen', htraced, hdiscover⟩ := hvisit (v :: path) seen t w hsound h
      (Bool.not_eq_true _ ▸ hw) hvw.target_mem hhead hdepth
    exact ⟨seen', htraced.lower, hdiscover⟩

/-- **All instances**, one after the other. -/
theorem Traced.foldl (hsearches : Searches d depth visit) (hvisit : Traces d depth visit)
    (h : Traced d (v :: path) seen t) (hfollowed : Followed d path v scanned s t)
    (hdepth : d.unfound s ≤ depth) (ws : List String) (hws : ∀ w ∈ ws, d.Uses v w) :
    ∃ seen', Traced d (v :: path) seen' (ws.foldl (ComponentSearch.follow visit v) t) ∧
      ∀ frontier, d.discover seen (ws ++ frontier) = d.discover seen' frontier := by
  induction ws generalizing scanned seen t with
  | nil => exact ⟨seen, h, fun _ => rfl⟩
  | cons w ws ih =>
    have hvw : d.Uses v w := hws w List.mem_cons_self
    obtain ⟨seen₁, h₁, hfirst⟩ := h.follow hvisit hfollowed.sound hvw
      ((Design.unfound_le hfollowed.grows).trans hdepth)
    obtain ⟨seen₂, h₂, hlater⟩ := ih h₁ (hfollowed.step hsearches hvw hdepth)
      fun x hx => hws x (List.mem_cons_of_mem _ hx)
    exact ⟨seen₂, h₂, fun frontier => (hfirst (ws ++ frontier)).trans (hlater frontier)⟩

/-- The last module of the path uses the new one, so the whole path reaches
it. -/
theorem Sound.reaches_of_head (h : Sound d path s) (hhead : ∀ u ∈ path.head?, d.Uses u v) :
    ∀ u ∈ path, d.Reaches u v := by
  rcases path with - | ⟨g, path⟩
  · simp
  · exact h.path_reaches (hhead g rfl)

/-- **The search finds modules in the order of discovery.** -/
theorem visit_traces (d : Design) : ∀ depth, Traces d depth (ComponentSearch.visit d.uses depth) := by
  intro depth
  induction depth with
  | zero =>
    intro path seen s v _ _ hnew hv _ hdepth
    have := Design.unfound_enter_lt hv hnew
    omega
  | succ depth ih =>
    intro path seen s v hsound h hnew hv hhead hdepth
    have hlt := Design.unfound_enter_lt hv hnew
    have hedges : ∀ w ∈ d.uses v, d.Uses v w := fun w hw => Design.mem_uses.1 hw
    have hstart := Followed.enter hsound hnew hv (hsound.reaches_of_head hhead)
    have hall := hstart.foldl (visit_spec d depth) (d.uses v) hedges (by omega)
    obtain ⟨seen', htraced, hdiscover⟩ := (h.enter hsound hnew hhead).foldl (visit_spec d depth) ih
      hstart (by omega) (d.uses v) hedges
    refine ⟨seen', htraced.leave hall.sound, fun frontier => ?_⟩
    rw [Design.discover_new hv (h.not_seen hnew), hdiscover]

end ComponentSearch

/-! ## The whole search -/

namespace Design

variable {d : Design} {seen : List String} {c g : List String} {v : String}

theorem searchAll_traced {s : ComponentSearch} (names : List String)
    (hsound : ComponentSearch.Sound d [] s) (h : ComponentSearch.Traced d [] seen s)
    (hnames : ∀ v ∈ names, v ∈ d.keys) :
    ComponentSearch.Traced d [] (d.discover seen names) (d.searchAll s names) := by
  induction names generalizing s seen with
  | nil =>
    rw [discover_nil]
    exact h
  | cons v names ih =>
    have hrest : ∀ w ∈ names, w ∈ d.keys := fun w hw => hnames w (List.mem_cons_of_mem _ hw)
    rw [searchAll, List.foldl_cons]
    by_cases hfound : s.found v = true
    · rw [if_pos hfound, discover_seen ((h.found_iff v).1 hfound)]
      exact ih hsound h hrest
    · have hnew : s.found v = false := Bool.not_eq_true _ ▸ hfound
      have hv : v ∈ d.keys := hnames v List.mem_cons_self
      obtain ⟨seen', htraced, hdiscover⟩ := ComponentSearch.visit_traces d d.size [] seen s v hsound h
        hnew hv (by simp) (d.unfound_le_size s)
      have hsearched := ComponentSearch.visit_spec d d.size [] s v hsound hnew hv (by simp)
        (d.unfound_le_size s)
      rw [if_neg hfound, hdiscover]
      exact ih hsearched.sound htraced hrest

/-- **The whole search is traced by the discovery.** -/
theorem discovery_traced (d : Design) :
    ComponentSearch.Traced d [] d.discovery (d.searchAll .start d.keys) :=
  searchAll_traced d.keys (ComponentSearch.sound_start d) (ComponentSearch.traced_start d)
    fun _ hv => hv

theorem mem_discovery : v ∈ d.discovery ↔ v ∈ d.keys := by
  rw [← d.discovery_traced.found_iff]
  exact ⟨d.search_sound.known v, d.search_found v⟩

/-- A part of the discovery is what the discovery has of its members. -/
theorem eq_filter_discovery (hc : c.Sublist d.discovery) : c = d.discovery.filter (· ∈ c) := by
  have hself : c.filter (· ∈ c) = c := List.filter_eq_self.2 fun v hv => decide_eq_true hv
  have hsub : c.Sublist (d.discovery.filter (· ∈ c)) := by
    have hfiltered := hc.filter (· ∈ c)
    rwa [hself] at hfiltered
  refine hsub.eq_of_length_le (List.Nodup.subperm ?_ fun v hv => ?_).length_le
  · exact d.nodup_discovery.filter _
  · exact of_decide_eq_true (List.mem_filter.1 hv).2

/-! ## The order of the components -/

/-- **No component reaches a later one.** -/
theorem components_pairwise (d : Design) :
    d.components.Pairwise fun c c' => ∀ v ∈ c, ∀ w ∈ c', ¬ d.Reaches v w := by
  rw [List.pairwise_iff_getElem]
  intro i j hi hj hij v hv w hw hvw
  -- no edge leaves the components up to the first one, and the second comes after them
  have hstart : v ∈ (d.components.take (i + 1)).flatten :=
    List.mem_flatten.2 ⟨_, List.mem_take_iff_getElem.2 ⟨i, by omega, rfl⟩, hv⟩
  have hreached : w ∈ (d.components.take (i + 1)).flatten :=
    hvw.mem_of_closed (fun a ha b hab => components_closed (List.take_prefix _ _) ha hab) hstart
  have hlater : w ∈ (d.components.drop (i + 1)).flatten := by
    refine List.mem_flatten.2 ⟨_, List.mem_drop_iff_getElem.2 ⟨j - (i + 1), by omega, rfl⟩, ?_⟩
    have hindex : i + 1 + (j - (i + 1)) = j := by omega
    simpa only [hindex] using hw
  have hnodup := d.nodup_components_flatten
  rw [← List.take_append_drop (i + 1) d.components, List.flatten_append, List.nodup_append] at hnodup
  exact hnodup.2.2 w hreached w hlater rfl

/-- **The groups come in reverse topological order, and their members in
order of discovery.** A group that another one reaches is listed before it.
The discovery lists every module once, and the search gives the modules
their numbers in this order. A group is what the discovery has of its
members; its first member is the one found first, and each later one is
instantiated by a member before it. -/
theorem cycles_in_discovery_order (d : Design) :
    (∀ earlier g later, d.cycles = earlier ++ g :: later → ∀ g' ∈ d.cycles, g' ≠ g →
        (∃ v ∈ g, ∃ w ∈ g', d.Reaches v w) → g' ∈ earlier) ∧
      (d.discovery.Nodup ∧ ∀ v, v ∈ d.discovery ↔ v ∈ d.keys) ∧
      (∀ v ∈ d.keys, (d.searchAll .start d.keys).number v = d.discovery.idxOf v) ∧
      ∀ g ∈ d.cycles,
        g = d.discovery.filter (· ∈ g) ∧
        g.head? = d.discovery.find? (· ∈ g) ∧
        ∀ before w after, g = before ++ w :: after → before ≠ [] → ∃ u ∈ before, d.Uses u w := by
  have hlisted : ∀ g ∈ d.cycles, d.Discovered d.discovery g := fun g hg =>
    d.discovery_traced.listed g (mem_cycles_iff.1 hg).1
  refine ⟨fun earlier g later hsplit g' hg' hne hreach => ?_,
    ⟨d.nodup_discovery, fun _ => mem_discovery⟩,
    fun v hv => d.discovery_traced.number_eq v (mem_discovery.2 hv), fun g hg => ?_⟩
  · have hordered := d.components_pairwise.sublist (List.filter_sublist (p := d.isGroup))
    rw [← cycles, hsplit, List.pairwise_append, List.pairwise_cons] at hordered
    obtain ⟨-, ⟨hlater, -⟩, -⟩ := hordered
    obtain ⟨v, hv, w, hw, hvw⟩ := hreach
    rw [hsplit] at hg'
    rcases List.mem_append.1 hg' with hg' | hg'
    · exact hg'
    · rcases List.mem_cons.1 hg' with heq | hg'
      · exact absurd heq hne
      · exact absurd hvw (hlater g' hg' v hv w hw)
  · have hfilter : g = d.discovery.filter (· ∈ g) := eq_filter_discovery (hlisted g hg).sublist
    refine ⟨hfilter, ?_, (hlisted g hg).led⟩
    rw [← List.head?_filter, ← hfilter]

end Design

end DesignAtlas
