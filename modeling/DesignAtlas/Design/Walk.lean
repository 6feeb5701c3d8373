import DesignAtlas.Design.Basic

/-!
# The instantiation walk

Below each top module the instances are visited depth first, in the order of their
declaration. The walk keeps a *frontier* of instances still to visit: it takes the
first, and puts the instances of its module in front of the others.

An instance whose type has no declaration is not expanded. Neither is one whose type
is being expanded above it, so that the walk ends in recursive designs as well. Every
instance taken from the frontier is a `Visit`; the entries of a report and the events
are read off the visits.
-/

namespace DesignAtlas

/-- An instance still to visit, with the types that are being expanded above it, from
the top down. -/
structure Pending where
  instance? : Option String
  type : String
  depth : Nat
  parent? : Option String
  ancestors : List String
  deriving DecidableEq, Repr

/-- What became of a visited instance. -/
inductive Fate where
  /-- Its type has no declaration. -/
  | undeclared
  /-- Its type is being expanded above it. -/
  | recursive (record : ModuleRecord)
  /-- Its own instances are visited next. -/
  | expanded (record : ModuleRecord)
  deriving DecidableEq, Repr

/-- An instance that was visited. -/
structure Visit where
  item : Pending
  fate : Fate
  deriving DecidableEq, Repr

/-- A line of a hierarchy report. -/
structure Entry where
  /-- The module of the instance, if it has a declaration. -/
  record? : Option ModuleRecord
  type : String
  /-- The number of modules above it. -/
  depth : Int
  /-- The name of the instance; a top module has none. -/
  instance? : Option String
  /-- The name of the module that holds the instance. -/
  parent? : Option String
  recursive : Bool
  deriving DecidableEq, Repr, Inhabited

namespace Entry

/-- Whether the type of an entry has a declaration. -/
def resolved (e : Entry) : Bool := e.record?.isSome

/-- The path of the file that the type of an entry is declared in. -/
def path? (e : Entry) : Option String := e.record?.map ModuleRecord.path

/-- An entry in a few words. -/
def label (e : Entry) : String :=
  match e.instance? with
  | none => e.type
  | some name => s!"{name} ({e.type})"

end Entry

namespace Pending

/-- A top module. -/
def top (name : String) : Pending := ⟨none, name, 0, none, []⟩

/-- The instances of a module that an item is expanded to. -/
def below (p : Pending) (r : ModuleRecord) : List Pending :=
  r.instances.map fun i => ⟨some i.name, i.type, p.depth + 1, some r.name, p.ancestors ++ [p.type]⟩

end Pending

namespace Visit

/-- The entry of a visit. Types without a declaration have one only on request. -/
def entryIf (showUndeclared : Bool) (v : Visit) : Option Entry :=
  let entry := fun record? recursive =>
    Entry.mk record? v.item.type v.item.depth v.item.instance? v.item.parent? recursive
  match v.fate with
  | .undeclared => if showUndeclared then some (entry none false) else none
  | .recursive r => some (entry (some r) true)
  | .expanded r => some (entry (some r) false)

/-- What is noted of a visit. -/
def event? (v : Visit) : Option Event :=
  match v.fate with
  | .undeclared => some (.undeclared v.item.type)
  | .recursive _ => some (.recursion v.item.type v.item.ancestors)
  | .expanded _ => none

/-- The entries of visits. -/
def entries (showUndeclared : Bool) (vs : List Visit) : List Entry :=
  vs.filterMap (entryIf showUndeclared)

/-- What is noted of visits. -/
def events (vs : List Visit) : List Event :=
  vs.filterMap event?

/-- What a visit adds to the front of the frontier. -/
def opened (v : Visit) : List Pending :=
  match v.fate with
  | .expanded r => v.item.below r
  | _ => []

/-- How many of `count + 1` entries are still wanted after a visit. -/
def wanted (showUndeclared : Bool) (count : Nat) (v : Visit) : Nat :=
  if (v.entryIf showUndeclared).isSome then count else count + 1

/-- The visits up to the one that gives the last of `count` entries. -/
def upTo (showUndeclared : Bool) : Nat → List Visit → List Visit
  | 0, _ => []
  | _, [] => []
  | count + 1, v :: vs =>
    v :: upTo showUndeclared (v.wanted showUndeclared count) vs

end Visit

namespace Design

/-- The number of known modules that are not among the given names. -/
def unseen (d : Design) (names : List String) : Nat :=
  (d.keys.filter fun name => !names.contains name).length

/-- A number greater than that of the instances of any module. -/
def fanout (d : Design) : Nat :=
  (d.values.map fun r => r.instances.length).foldr max 0 + 1

/-- A bound on the visits that an item leads to. -/
def weight (d : Design) (p : Pending) : Nat :=
  Nat.pow d.fanout (d.unseen p.ancestors)

/-- A bound on the visits that a frontier leads to. -/
def load (d : Design) : List Pending → Nat
  | [] => 0
  | p :: frontier => d.weight p + d.load frontier

theorem load_append (d : Design) (ps qs : List Pending) :
    d.load (ps ++ qs) = d.load ps + d.load qs := by
  induction ps with
  | nil => simp [load]
  | cons p ps ih => rw [List.cons_append, load, load, ih, Nat.add_assoc]

/-- Items of one weight together weigh as much as one of them times their number. -/
theorem load_eq_mul {d : Design} {ps : List Pending} {w : Nat}
    (h : ∀ p ∈ ps, d.weight p = w) : d.load ps = ps.length * w := by
  induction ps with
  | nil => simp [load]
  | cons p ps ih =>
    rw [load, h p List.mem_cons_self, ih fun q hq => h q (List.mem_cons_of_mem _ hq),
      List.length_cons, Nat.succ_mul, Nat.add_comm]

theorem le_foldr_max {n : Nat} {ns : List Nat} (h : n ∈ ns) : n ≤ ns.foldr max 0 := by
  induction ns with
  | nil => simp at h
  | cons m ns ih =>
    rw [List.foldr_cons]
    rcases List.mem_cons.1 h with rfl | h
    · exact Nat.le_max_left ..
    · exact Nat.le_trans (ih h) (Nat.le_max_right ..)

theorem mem_entries_of_get? {d : Design} {key : String} {r : ModuleRecord}
    (h : d.get? key = some r) : (key, r) ∈ d.entries := by
  obtain ⟨before, after, hentries, -⟩ := List.lookup_eq_some_iff.1 h
  rw [hentries]
  exact List.mem_append_right _ List.mem_cons_self

theorem length_instances_lt_fanout {d : Design} {key : String} {r : ModuleRecord}
    (h : d.get? key = some r) : r.instances.length < d.fanout := by
  have hmem : r ∈ d.values := List.mem_map.2 ⟨_, mem_entries_of_get? h, rfl⟩
  exact Nat.lt_succ_of_le (le_foldr_max (List.mem_map.2 ⟨r, hmem, rfl⟩))

/-- A stricter test keeps fewer members, if it drops one that the other keeps. -/
theorem length_filter_lt {α : Type} {p q : α → Bool} {a : α} {as : List α}
    (hpq : ∀ x, p x = true → q x = true) (ha : a ∈ as) (hp : p a = false) (hq : q a = true) :
    (as.filter p).length < (as.filter q).length := by
  have hfilter : (as.filter q).filter p = as.filter p := by
    rw [List.filter_filter]
    refine List.filter_congr fun x _ => ?_
    cases hx : p x with
    | false => rfl
    | true => rw [hpq x hx]; rfl
  rw [← hfilter]
  refine List.length_filter_lt_length_iff_exists.2 ⟨a, List.mem_filter.2 ⟨ha, hq⟩, ?_⟩
  simp [hp]

/-- Expanding a known module that is not above itself leaves fewer modules unseen. -/
theorem unseen_lt {d : Design} {names : List String} {name : String} (hk : name ∈ d.keys)
    (hn : name ∉ names) : d.unseen (names ++ [name]) < d.unseen names := by
  refine length_filter_lt ?_ hk ?_ ?_
  · intro x hx
    simp only [Bool.not_eq_true', List.contains_eq_mem, decide_eq_false_iff_not] at hx ⊢
    exact fun h => hx (List.mem_append_left _ h)
  · simp
  · simpa using hn

theorem mem_keys_of_get? {d : Design} {key : String} {r : ModuleRecord}
    (h : d.get? key = some r) : key ∈ d.keys :=
  List.mem_map.2 ⟨_, mem_entries_of_get? h, rfl⟩

/-- The instances of an expanded item together weigh less than the item. -/
theorem weight_below_lt {d : Design} {p : Pending} {r : ModuleRecord}
    (hr : d.get? p.type = some r) (hp : p.type ∉ p.ancestors) :
    d.load (p.below r) < d.weight p := by
  have hlt := unseen_lt (mem_keys_of_get? hr) hp
  have hlen := length_instances_lt_fanout hr
  have hpos : 0 < d.fanout := Nat.lt_of_le_of_lt (Nat.zero_le _) hlen
  have hload : d.load (p.below r) =
      r.instances.length * Nat.pow d.fanout (d.unseen (p.ancestors ++ [p.type])) := by
    rw [load_eq_mul (w := Nat.pow d.fanout (d.unseen (p.ancestors ++ [p.type])))]
    · simp [Pending.below]
    · intro q hq
      obtain ⟨i, -, rfl⟩ := List.mem_map.1 hq
      rfl
  rw [hload, weight]
  calc r.instances.length * Nat.pow d.fanout (d.unseen (p.ancestors ++ [p.type]))
      < d.fanout * Nat.pow d.fanout (d.unseen (p.ancestors ++ [p.type])) :=
        Nat.mul_lt_mul_of_pos_right hlen (Nat.pow_pos hpos)
    _ = Nat.pow d.fanout (d.unseen (p.ancestors ++ [p.type]) + 1) := Nat.mul_comm ..
    _ ≤ Nat.pow d.fanout (d.unseen p.ancestors) := Nat.pow_le_pow_right hpos hlt

theorem weight_pos (d : Design) (p : Pending) : 0 < d.weight p :=
  Nat.pow_pos (Nat.succ_pos _)

/-- The visit of an item. -/
def visit (d : Design) (p : Pending) : Visit :=
  match d.get? p.type with
  | none => ⟨p, .undeclared⟩
  | some r => if p.type ∈ p.ancestors then ⟨p, .recursive r⟩ else ⟨p, .expanded r⟩

/-- What a visit opens weighs less than the item that is visited. -/
theorem load_opened_lt (d : Design) (p : Pending) : d.load (d.visit p).opened < d.weight p := by
  unfold visit
  split
  · exact d.weight_pos p
  · rename_i r hr
    split
    · exact d.weight_pos p
    · rename_i hp
      exact weight_below_lt hr hp

theorem load_visit_lt (d : Design) (p : Pending) (frontier : List Pending) :
    d.load ((d.visit p).opened ++ frontier) < d.load (p :: frontier) := by
  have := d.load_opened_lt p
  rw [load_append, load]
  omega

/-- The visits from a frontier on. -/
def visitsFrom (d : Design) : List Pending → List Visit
  | [] => []
  | p :: frontier => d.visit p :: d.visitsFrom ((d.visit p).opened ++ frontier)
termination_by frontier => d.load frontier
decreasing_by exact d.load_visit_lt p frontier

/-- The visits from a frontier on, up to the one that gives the last of `count`
entries. The walk goes no further. -/
def visitsUpTo (d : Design) (showUndeclared : Bool) : Nat → List Pending → List Visit
  | 0, _ => []
  | _, [] => []
  | count + 1, p :: frontier =>
    d.visit p :: d.visitsUpTo showUndeclared
      ((d.visit p).wanted showUndeclared count) ((d.visit p).opened ++ frontier)
termination_by _ frontier => d.load frontier
decreasing_by exact d.load_visit_lt p frontier

/-- Stopping early gives the start of the whole walk. -/
theorem visitsUpTo_eq (d : Design) (showUndeclared : Bool) (count : Nat)
    (frontier : List Pending) :
    d.visitsUpTo showUndeclared count frontier =
      Visit.upTo showUndeclared count (d.visitsFrom frontier) := by
  fun_induction visitsUpTo d showUndeclared count frontier with
  | case1 => rw [Visit.upTo]
  | case2 count => rw [visitsFrom]; cases count <;> rfl
  | case3 count p frontier ih => rw [visitsFrom, Visit.upTo, ih]

/-- **The visits below top modules**, one top after the other. -/
def visits (d : Design) (tops : List String) : List Visit :=
  d.visitsFrom (tops.map .top)

/-- **The hierarchy below top modules**, by default below those of the design. -/
def hierarchy (d : Design) (tops? : Option (List String)) (showUndeclared : Bool) :
    List Entry × List Event :=
  let vs := d.visits (tops?.getD d.tops)
  (Visit.entries showUndeclared vs, Visit.events vs)

end Design

end DesignAtlas
