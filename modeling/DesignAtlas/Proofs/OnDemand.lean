import DesignAtlas.Proofs.Listing

/-!
# Searches on demand

A search under way meets the nodes below its start one by one and stops at
each match. `Search.Answers` says what one request can come to: the search
has handed out all it may, or it tests what is left and finds nothing, or it
tests nodes up to the next one that is accepted, and then has the walk from
there before it.

So the nodes tested in a number of requests are the shortest prefix of the
walk that holds the matches asked for (`isShortestPrefix_replies`), and all
matches together are those of the walk, cut at the limit (`all_eq`).
-/

namespace DesignAtlas

/-! ## Shortest prefixes -/

/-- **The shortest prefix of a list with `k` accepted members**, or the whole
list where it has fewer. -/
structure IsShortestPrefix {α : Type} (p : α → Bool) (k : ℕ) (xs ys : List α) : Prop where
  isPrefix : ys <+: xs
  nothing : k = 0 → ys = []
  enough : k ≤ xs.countP p → ys.countP p = k
  whole : xs.countP p < k → ys = xs
  least : ∀ zs, zs <+: xs → k ≤ zs.countP p → ys <+: zs

namespace IsShortestPrefix

variable {α : Type} {p : α → Bool} {k : ℕ} {x : α} {xs ys before : List α}

theorem zero (xs : List α) : IsShortestPrefix p 0 xs [] where
  isPrefix := List.nil_prefix
  nothing := fun _ => rfl
  enough := fun _ => List.countP_nil
  whole := fun h => absurd h (Nat.not_lt_zero _)
  least := fun _ _ _ => List.nil_prefix

theorem nil (k : ℕ) : IsShortestPrefix p k [] [] where
  isPrefix := List.prefix_refl _
  nothing := fun _ => rfl
  enough := by
    intro h
    rw [List.countP_nil] at h ⊢
    omega
  whole := fun _ => rfl
  least := fun _ _ _ => List.nil_prefix

/-- What has to be shown of a prefix that goes on past the first member: the
prefix after it is the shortest one with the matches that are then missing. -/
theorem cons {j : ℕ} (hk : k ≠ 0) (hcount : ∀ zs, (x :: zs).countP p + j = zs.countP p + k)
    (h : IsShortestPrefix p j xs ys) : IsShortestPrefix p k (x :: xs) (x :: ys) where
  isPrefix := List.cons_prefix_cons.2 ⟨rfl, h.isPrefix⟩
  nothing := fun hzero => absurd hzero hk
  enough := by
    intro hle
    have hxs := hcount xs
    have hys := hcount ys
    have hrest := h.enough (by omega)
    omega
  whole := by
    intro hlt
    have hxs := hcount xs
    rw [h.whole (by omega)]
  least := by
    intro zs hzs hle
    cases zs with
    | nil => exact absurd (Nat.le_zero.1 hle) hk
    | cons z zs =>
      obtain ⟨rfl, hrest⟩ := List.cons_prefix_cons.1 hzs
      have hcountZs := hcount zs
      exact List.cons_prefix_cons.2 ⟨rfl, h.least zs hrest (by omega)⟩

theorem cons_accepted (hx : p x) (h : IsShortestPrefix p k xs ys) :
    IsShortestPrefix p (k + 1) (x :: xs) (x :: ys) := by
  refine cons (Nat.succ_ne_zero k) (fun zs => ?_) h
  rw [List.countP_cons_of_pos hx]
  omega

theorem cons_rejected (hx : ¬ p x) (hk : k ≠ 0) (h : IsShortestPrefix p k xs ys) :
    IsShortestPrefix p k (x :: xs) (x :: ys) :=
  cons hk (fun zs => by rw [List.countP_cons_of_neg hx]) h

theorem append_rejected (hbefore : ∀ x ∈ before, ¬ p x) (hk : k ≠ 0)
    (h : IsShortestPrefix p k xs ys) : IsShortestPrefix p k (before ++ xs) (before ++ ys) := by
  induction before with
  | nil => exact h
  | cons x before ih =>
    obtain ⟨hx, hrest⟩ := List.forall_mem_cons.1 hbefore
    exact cons_rejected hx hk (ih hrest)

end IsShortestPrefix

namespace Search

open Node

/-! ## One request -/

/-- **What asking for the next match can come to.** The walk from the nodes
still to visit is divided by what is tested: the rejected nodes, the match
and the walk that is left. -/
inductive Answers (s : Search) : Reply → Prop
  /-- The search has handed out all it may. -/
  | spent (limit : s.limit = some 0) : Answers s ⟨none, [], s⟩
  /-- There are no more matches. -/
  | exhausted {tested : List Node} (limit : s.limit ≠ some 0)
      (walk : preorderFrom s.pending = tested)
      (rejected : ∀ n ∈ tested, ¬ s.filter.acceptsNode n) :
      Answers s ⟨none, tested, ⟨s.filter, s.limit, []⟩⟩
  /-- There is a next match. -/
  | matched {before pending : List Node} {n : Node} (limit : s.limit ≠ some 0)
      (walk : preorderFrom s.pending = before ++ n :: preorderFrom pending)
      (rejected : ∀ m ∈ before, ¬ s.filter.acceptsNode m) (accepted : s.filter.acceptsNode n) :
      Answers s ⟨some n, before ++ [n], ⟨s.filter, s.limit.map (· - 1), pending⟩⟩

theorem answers_seek {limit : Option ℕ} (hlimit : limit ≠ some 0) (f : TagFilter)
    (ns : List Node) : Answers ⟨f, limit, ns⟩ (seek f limit ns) := by
  fun_induction seek f limit ns with
  | case1 => exact .exhausted hlimit (by rw [preorderFrom]) fun n hn => absurd hn List.not_mem_nil
  | case2 n pending hit =>
    have hwalk : preorderFrom (n :: pending) = [] ++ n :: preorderFrom (n.children ++ pending) :=
      preorderFrom_cons n pending
    exact .matched hlimit hwalk (fun m hm => absurd hm List.not_mem_nil) hit
  | case3 n pending miss reply ih =>
    -- a rejected node stands before all that the rest of the request tests
    have hreply : Answers ⟨f, limit, n.children ++ pending⟩ reply := ih
    clear_value reply
    cases hreply with
    | spent hspent => exact absurd hspent hlimit
    | exhausted _ hwalk hrejected =>
      refine .exhausted hlimit ?_ (List.forall_mem_cons.2 ⟨miss, hrejected⟩)
      rw [preorderFrom_cons, hwalk]
    | @matched before left m _ hwalk hrejected haccepted =>
      have hall : preorderFrom (n :: pending) = (n :: before) ++ m :: preorderFrom left := by
        rw [preorderFrom_cons, hwalk, List.cons_append]
      exact Answers.matched (s := ⟨f, limit, n :: pending⟩) hlimit hall
        (List.forall_mem_cons.2 ⟨miss, hrejected⟩) haccepted

theorem answers_next (s : Search) : Answers s s.next := by
  unfold next
  split
  · rename_i hlimit
    exact .spent hlimit
  · rename_i hlimit
    exact answers_seek hlimit s.filter s.pending

/-- A request finds the first accepted node of the walk. -/
theorem found?_next {s : Search} (h : s.limit ≠ some 0) :
    s.next.found? = (preorderFrom s.pending).find? s.filter.acceptsNode := by
  have hanswers := s.answers_next
  generalize s.next = reply at hanswers ⊢
  cases hanswers with
  | spent hlimit => exact absurd hlimit h
  | exhausted _ hwalk hrejected => rw [hwalk, List.find?_eq_none.2 hrejected]
  | matched _ hwalk hrejected haccepted =>
    rw [hwalk, List.find?_append, List.find?_eq_none.2 hrejected, Option.none_or,
      List.find?_cons_of_pos haccepted]

/-! ## A number of requests -/

/-- The number of matches that a number of requests asks for, under a limit. -/
def granted (limit : Option ℕ) (t : ℕ) : ℕ := (limit.map (min t)).getD t

theorem toNat_max_zero (k : ℤ) : (max k 0).toNat = k.toNat := by omega

theorem granted_zero (limit : Option ℕ) : granted limit 0 = 0 := by
  cases limit with
  | none => rfl
  | some k => exact Nat.zero_min k

theorem granted_succ {limit : Option ℕ} (h : limit ≠ some 0) (t : ℕ) :
    granted limit (t + 1) = granted (limit.map (· - 1)) t + 1 := by
  cases limit with
  | none => rfl
  | some k =>
    have hk : k ≠ 0 := fun hzero => h (congrArg some hzero)
    change min (t + 1) k = min t (k - 1) + 1
    omega

/-- **The tests of some requests are the shortest prefix of the walk with the
matches asked for.** By induction on the requests: the first one divides the
walk, and those after it see the part that is left. -/
theorem isShortestPrefix_replies (t : ℕ) (s : Search) :
    IsShortestPrefix s.filter.acceptsNode (granted s.limit t) (preorderFrom s.pending)
      ((s.replies t).flatMap Reply.tested) := by
  induction t generalizing s with
  | zero =>
    rw [granted_zero]
    exact .zero _
  | succ t ih =>
    rw [replies, List.flatMap_cons]
    have hanswers := s.answers_next
    generalize s.next = reply at hanswers ⊢
    cases hanswers with
    | spent hlimit =>
      -- no request tests anything any more
      have hzero : ∀ j, granted s.limit j = 0 := fun j => by rw [hlimit]; exact Nat.min_zero j
      have hrest := ih s
      rw [hzero] at hrest ⊢
      exact hrest
    | exhausted hlimit hwalk hrejected =>
      -- the walk is at its end, so the requests that follow test nothing
      have hnone := (ih ⟨s.filter, s.limit, []⟩).isPrefix
      rw [preorderFrom, List.prefix_nil] at hnone
      rw [hnone, List.append_nil, hwalk, granted_succ hlimit]
      have hall := IsShortestPrefix.append_rejected hrejected (Nat.succ_ne_zero _)
        (IsShortestPrefix.nil (granted (s.limit.map (· - 1)) t + 1))
      rwa [List.append_nil] at hall
    | @matched before pending n hlimit hwalk hrejected haccepted =>
      rw [hwalk, granted_succ hlimit, List.append_assoc, List.singleton_append]
      exact .append_rejected hrejected (Nat.succ_ne_zero _)
        (.cons_accepted haccepted (ih ⟨s.filter, s.limit.map (· - 1), pending⟩))

/-- The matches handed out are the accepted nodes among those tested. -/
theorem found_replies (t : ℕ) (s : Search) :
    (s.replies t).filterMap Reply.found? =
      ((s.replies t).flatMap Reply.tested).filter s.filter.acceptsNode := by
  induction t generalizing s with
  | zero => rfl
  | succ t ih =>
    rw [replies, List.flatMap_cons, List.filter_append]
    have hanswers := s.answers_next
    generalize s.next = reply at hanswers ⊢
    cases hanswers with
    | spent hlimit => exact ih s
    | exhausted _ _ hrejected =>
      rw [List.filter_eq_nil_iff.2 hrejected]
      exact ih ⟨s.filter, s.limit, []⟩
    | @matched before pending n _ _ hrejected haccepted =>
      rw [List.filter_append, List.filter_eq_nil_iff.2 hrejected, List.filter_cons_of_pos haccepted,
        List.filter_nil, List.nil_append, List.singleton_append]
      exact congrArg (n :: ·) (ih ⟨s.filter, s.limit.map (· - 1), pending⟩)

/-! ## All matches -/

/-- A list cut at a limit. -/
def upTo {α : Type} (limit : Option ℕ) (xs : List α) : List α := limit.elim xs xs.take

theorem upTo_nil {α : Type} (limit : Option ℕ) : upTo limit ([] : List α) = [] := by
  cases limit with
  | none => rfl
  | some k => exact List.take_nil

theorem upTo_cons {α : Type} {limit : Option ℕ} (h : limit ≠ some 0) (x : α) (xs : List α) :
    upTo limit (x :: xs) = x :: upTo (limit.map (· - 1)) xs := by
  cases limit with
  | none => rfl
  | some k => exact List.take_cons (Nat.pos_of_ne_zero fun hzero => h (congrArg some hzero))

/-- **All matches together are those of the walk**, cut at the limit. -/
theorem all_eq (s : Search) :
    s.all = upTo s.limit ((preorderFrom s.pending).filter s.filter.acceptsNode) := by
  fun_induction all s with
  | case1 s tested rest hnext =>
    have hanswers := s.answers_next
    rw [hnext] at hanswers
    cases hanswers with
    | spent hlimit =>
      rw [hlimit]
      rfl
    | exhausted _ hwalk hrejected => rw [hwalk, List.filter_eq_nil_iff.2 hrejected, upTo_nil]
  | case2 s n tested rest hnext _ ih =>
    have hanswers := s.answers_next
    rw [hnext] at hanswers
    cases hanswers with
    | matched hlimit hwalk hrejected haccepted =>
      rw [hwalk, List.filter_append, List.filter_eq_nil_iff.2 hrejected, List.nil_append,
        List.filter_cons_of_pos haccepted, upTo_cons hlimit, ih]

end Search

namespace Node

variable (f : TagFilter)

theorem findAll_eq_upTo (n : Node) (limit : Option ℕ) :
    n.findAll f limit = Search.upTo limit (n.descendants.filter f.acceptsNode) := by
  cases limit with
  | none => exact findAll_none f n
  | some k => exact findAll_some f n k

/-- **Walks and searches are recursion on the tree.** A walk lists the nodes
at all positions, each position once, by the recursion. The matches of a
search are the nodes of this list but the first whose tag is among those of
the filter, and a limit cuts them, a negative one like zero. They are the
same when they are asked for on demand, and the first of them is what a
search for one node finds. -/
theorem searches_eq_listing (n : Node) (f : TagFilter) :
    n.preorder = n.listing ∧
      (n.positions.Nodup ∧ (∀ p, p ∈ n.positions ↔ (n.at? p).isSome) ∧
        n.positions.filterMap n.at? = n.listing) ∧
      n.findAll f none = n.listing.tail.filter (fun m => m.tag? ∈ f.tags) ∧
      (∀ maxCount, (n.search f maxCount).all = n.findAll f (maxCount.map Int.toNat)) ∧
      (∀ k : ℤ, (n.search f (some k)).all = (n.findAll f none).take (max k 0).toNat) ∧
      n.find? f = (n.findAll f none).head? ∧ (n.search f (some 1)).next.found? = n.find? f := by
  have haccepts : f.acceptsNode = fun m => decide (m.tag? ∈ f.tags) := by
    funext m
    rw [TagFilter.acceptsNode, TagFilter.accepts, List.contains_eq_mem]
  have hall : ∀ maxCount, (n.search f maxCount).all = n.findAll f (maxCount.map Int.toNat) := by
    intro maxCount
    rw [Search.all_eq, findAll_eq_upTo]
    rfl
  refine ⟨preorder_eq_listing n,
    ⟨nodup_positions n, fun _ => mem_positions_iff, filterMap_positions n⟩, ?_, hall, ?_, ?_, ?_⟩
  · rw [findAll_none, descendants_eq_tail, haccepts]
  · intro k
    rw [hall, Search.toNat_max_zero, findAll_none]
    exact findAll_some f n k.toNat
  · rw [find?_eq, findAll_none, List.head?_filter]
  · have hlimit : (n.search f (some 1)).limit ≠ some 0 := by
      intro h
      cases h
    rw [find?_eq, Search.found?_next hlimit]
    rfl

/-- **A search on demand tests no more than it is asked for.** With `k`
matches asked for, under the limit, the nodes tested are the shortest prefix
of the listing below the node that holds `k` matches: none for `k = 0`, and
all if there are fewer matches. They stand at the first positions below the
node, each tested once, and the matches handed out are the accepted ones
among them. -/
theorem requests_test_shortest_prefix (n : Node) (f : TagFilter) (maxCount : Option ℤ) (t : ℕ) :
    let replies := (n.search f maxCount).replies t
    let tested := replies.flatMap Search.Reply.tested
    let k := (maxCount.map fun m => min t (max m 0).toNat).getD t
    IsShortestPrefix f.acceptsNode k n.listing.tail tested ∧
      (∃ ps, ps <+: n.positions.tail ∧ ps.Nodup ∧ ps.filterMap n.at? = tested ∧
        ps.length = tested.length) ∧
      replies.filterMap Search.Reply.found? = tested.filter f.acceptsNode := by
  intro replies tested k
  have hk : k = Search.granted (maxCount.map Int.toNat) t := by
    simp only [k, Search.granted, Option.map_map, Function.comp_def,
      Search.toNat_max_zero]
  have hshortest : IsShortestPrefix f.acceptsNode k n.descendants tested := by
    rw [hk]
    exact Search.isShortestPrefix_replies t (n.search f maxCount)
  refine ⟨?_, exists_positions_of_prefix hshortest.isPrefix,
    Search.found_replies t (n.search f maxCount)⟩
  rwa [descendants_eq_tail] at hshortest

-- the limit of one is used up by the first request, and the last branch is never tested
example : (((branch "root" [branch "a" [leaf, branch "b" []], branch "b" []]).search
    (.ofTags ["b"]) (some 1)).replies 3).map (fun r => r.tested.length) = [3, 0, 0] := by
  decide +kernel

end Node

end DesignAtlas
