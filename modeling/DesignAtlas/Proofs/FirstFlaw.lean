import DesignAtlas.Frontend.Parsed
import DesignAtlas.Proofs.Export
import Mathlib.Data.List.Lex

/-!
# Malformed exports: which node is reported

The nodes of an exported value have positions: the numbers of the children
that lead to a node from the root, counted in the lists as they stand, null
children included (`Json.at?`). Positions are compared like words, and this
is document order: a node stands before those below it, and these before
its later siblings.

A value is rejected exactly for its first malformed node in document order,
with the position and the flaw of that node (`Tree.ofExport_eq_error_iff`).
Neither depends on what becomes of null children, so the wording is the same
however these are treated.
-/

namespace DesignAtlas

theorem Token.ofSpan_of_lt {tag : CodePoints} {start stop : ℤ} {text? : Option String}
    (h : stop < start) : Token.ofSpan tag start stop text? = .error (.reversed tag start stop) :=
  dif_neg (Int.not_le.2 h)

theorem Token.ofSpan_of_le {tag : CodePoints} {start stop : ℤ} {text? : Option String}
    (h : start ≤ stop) : ∃ t, Token.ofSpan tag start stop text? = .ok t :=
  ⟨_, dif_pos h⟩

namespace Json

/-! ## Positions -/

/-- **The node at a position.** -/
def at? (j : Json) : List ℕ → Option Json
  | [] => some j
  | i :: p => j.listed[i]?.bind fun c => c.at? p

variable {j n c under : Json} {p q : List ℕ} {i : ℕ} {flaw : Flaw} {items : List Json}

theorem at?_cons_eq_some_iff :
    j.at? (i :: p) = some n ↔ ∃ c, j.listed[i]? = some c ∧ c.at? p = some n := by
  rw [at?, Option.bind_eq_some_iff]

/-! ## Nodes without a flaw of their own -/

/-- A node whose own fields follow the grammar, whatever its children are:
null, a token, or an object with a tag and a list of children. -/
def SoundNode (j : Json) : Prop :=
  j = .null ∨ j.IsToken ∨
    j.HasTag ∧ ∃ under items, j.field? "children" = some under ∧ under.Lists items

/-- A root whose own fields follow the grammar, whatever its children are. -/
def SoundRoot (j : Json) : Prop :=
  j.HasTag ∧ (j.field? "children" = none ∨
    ∃ under items, j.field? "children" = some under ∧ under.Lists items)

/-- **A node is well formed by itself**, at its position: only at the root
is null a flaw, and only there may an object with a tag be without children
and without a span. -/
def SoundAt (j : Json) : List ℕ → Prop
  | [] => j.SoundRoot
  | _ :: _ => j.SoundNode

theorem soundNode_iff : j.SoundNode ↔ ∃ s, j.shape = .ok s := by
  constructor
  · rintro (rfl | htoken | ⟨htag, under, items, hchildren, hlists⟩)
    · exact ⟨.nothing, rfl⟩
    · obtain ⟨hspan, hshape⟩ := shape_of_isToken htoken
      exact ⟨_, hshape⟩
    · exact ⟨_, shape_of_children htag hchildren hlists⟩
  · rintro ⟨s, hshape⟩
    rcases cases_of_shape hshape with ⟨hnull, -⟩ | ⟨htoken, -⟩ |
      ⟨under, items, htag, hchildren, hlists, -⟩
    · exact Or.inl hnull
    · exact Or.inr (Or.inl htoken)
    · exact Or.inr (Or.inr ⟨htag, under, items, hchildren, hlists⟩)

theorem listed_of_branch {tag : String} (h : j.shape = .ok (.branch tag items)) :
    j.listed = items := by
  rcases cases_of_shape h with ⟨-, hs⟩ | ⟨-, hspan, hs⟩ | ⟨under, _, _, hchildren, hlists, hs⟩
  · cases hs
  · cases hs
  · cases hs
    exact listed_eq hchildren hlists

theorem soundRoot_iff : j.SoundRoot ↔ j.HasTag ∧ ∃ items, (j.field "children").Lists items := by
  refine and_congr_right fun _ => ?_
  rw [field]
  rcases j.field? "children" with - | under
  · exact ⟨fun _ => ⟨[], .null⟩, fun _ => Or.inl rfl⟩
  · simp

/-! ## The flaw of a node -/

/-- Both offsets of a token are whole numbers from zero on. -/
def HasOffsets (j : Json) (start stop : ℤ) : Prop :=
  j.field? "start" = some (.int start) ∧ j.field? "end" = some (.int stop) ∧ 0 ≤ start ∧ 0 ≤ stop

/-- There is no text under `text`, or null, or a text. -/
def HasText (j : Json) : Prop :=
  j.field? "text" = none ∨ j.field? "text" = some .null ∨ ∃ s, j.field? "text" = some (.str s)

/-- **What is wrong with a node by itself.** The fields are looked at in the
order of the rules, and the first that fails gives the flaw. -/
inductive HasFlaw : Json → Flaw → Prop
  | notObject {j : Json} : (∀ fields, j ≠ .obj fields) → HasFlaw j (.notObject j.kindName)
  | missingTag {fields : List (CodePoints × Json)} :
      ¬ (obj fields).HasTag → HasFlaw (.obj fields) .missingTag
  | childrenNotList {j under : Json} :
      j.HasTag → j.field? "children" = some under → (∀ items, ¬ under.Lists items) →
      HasFlaw j .childrenNotList
  | badOffsets {j : Json} {tag : CodePoints} :
      j.field? "tag" = some (.str tag) → j.field? "children" = none →
      (∀ start stop, ¬ j.HasOffsets start stop) → HasFlaw j (.badOffsets tag)
  | badText {j : Json} {tag : CodePoints} {start stop : ℤ} :
      j.field? "tag" = some (.str tag) → j.field? "children" = none →
      j.HasOffsets start stop → ¬ j.HasText → HasFlaw j (.badText tag)
  | reversed {j : Json} {tag : CodePoints} {start stop : ℤ} :
      j.field? "tag" = some (.str tag) → j.field? "children" = none →
      j.HasOffsets start stop → j.HasText → stop < start → HasFlaw j (.reversed tag start stop)

section Fields

variable {tag : CodePoints} {start stop : ℤ}

theorem hasOffsets_iff :
    j.HasOffsets start stop ↔
      (j.field "start").offset? = some start ∧ (j.field "end").offset? = some stop := by
  rw [offset?_field_eq_some_iff, offset?_field_eq_some_iff, HasOffsets]
  tauto

theorem asToken_of_no_offsets (h : ∀ start stop, ¬ j.HasOffsets start stop) :
    j.asToken tag = .error (.badOffsets tag) := by
  unfold asToken
  split
  · rename_i start stop hstart hstop
    exact absurd (hasOffsets_iff.2 ⟨hstart, hstop⟩) (h start stop)
  · rfl

theorem asToken_of_no_text (hoffsets : j.HasOffsets start stop) (htext : ¬ j.HasText) :
    j.asToken tag = .error (.badText tag) := by
  obtain ⟨hstart, hstop⟩ := hasOffsets_iff.1 hoffsets
  simp only [asToken, hstart, hstop]
  rw [field]
  rcases hvalue : j.field? "text" with - | value
  · exact absurd (Or.inl hvalue) htext
  · cases value with
    | null => exact absurd (Or.inr (Or.inl hvalue)) htext
    | str s => exact absurd (Or.inr (Or.inr ⟨s, hvalue⟩)) htext
    | _ => rfl

theorem asToken_of_hasText (hoffsets : j.HasOffsets start stop) (htext : j.HasText) :
    ∃ text?, j.asToken tag = Token.ofSpan tag start stop text? := by
  obtain ⟨hstart, hstop⟩ := hasOffsets_iff.1 hoffsets
  simp only [asToken, hstart, hstop]
  rw [field]
  rcases htext with htext | htext | ⟨s, htext⟩
  · exact ⟨none, by rw [htext]; rfl⟩
  · exact ⟨none, by rw [htext]; rfl⟩
  · exact ⟨some s.shown, by rw [htext]; rfl⟩

/-- The flaw that is found in a token is the flaw that it has. -/
theorem hasFlaw_of_asToken (htag : j.field? "tag" = some (.str tag))
    (hchildren : j.field? "children" = none) (h : j.asToken tag = .error flaw) :
    j.HasFlaw flaw := by
  by_cases hoffsets : ∃ start stop, j.HasOffsets start stop
  · obtain ⟨start, stop, hoffsets⟩ := hoffsets
    by_cases htext : j.HasText
    · obtain ⟨text?, hspan⟩ : ∃ text?, j.asToken tag = Token.ofSpan tag start stop text? :=
        asToken_of_hasText hoffsets htext
      rcases Int.lt_or_le stop start with hlt | hle
      · rw [hspan, Token.ofSpan_of_lt hlt] at h
        cases h
        exact .reversed htag hchildren hoffsets htext hlt
      · obtain ⟨t, ht⟩ : ∃ t, Token.ofSpan tag start stop text? = .ok t := Token.ofSpan_of_le hle
        rw [hspan, ht] at h
        cases h
    · rw [asToken_of_no_text hoffsets htext] at h
      cases h
      exact .badText htag hchildren hoffsets htext
  · simp only [not_exists] at hoffsets
    rw [asToken_of_no_offsets hoffsets] at h
    cases h
    exact .badOffsets htag hchildren hoffsets

end Fields

theorem childItems_eq_error (h : ∀ items, ¬ under.Lists items) :
    under.childItems = .error .childrenNotList := by
  cases under with
  | null => exact absurd .null (h [])
  | arr items => exact absurd (.arr items) (h items)
  | _ => rfl

theorem hasFlaw_of_childItems (htag : j.HasTag) (hchildren : j.field? "children" = some under)
    (h : under.childItems = .error flaw) : j.HasFlaw flaw := by
  have hnone : ∀ items, ¬ under.Lists items := by
    intro items hlists
    rw [childItems_eq_ok_iff.2 hlists] at h
    cases h
  rw [childItems_eq_error hnone] at h
  cases h
  exact .childrenNotList htag hchildren hnone

theorem tag_of_not_hasTag {fields : List (CodePoints × Json)} (h : ¬ (obj fields).HasTag) :
    (obj fields).tag = .error .missingTag := by
  unfold Json.tag
  simp only
  split
  · rename_i tag htag
    exact absurd ⟨tag, htag⟩ h
  · rfl

theorem hasFlaw_of_tag (h : j.tag = .error flaw) : j.HasFlaw flaw := by
  cases j with
  | obj fields =>
    have hnone : ¬ (obj fields).HasTag := by
      rintro ⟨tag, htag⟩
      rw [tag_eq_ok_iff.2 htag] at h
      cases h
    rw [tag_of_not_hasTag hnone] at h
    cases h
    exact .missingTag hnone
  | _ =>
    cases h
    exact .notObject nofun

/-- **The shape of a node fails with the flaw of the node.** -/
theorem hasFlaw_of_shape (h : j.shape = .error flaw) : j.HasFlaw flaw := by
  rcases htag : j.tag with flaw' | tag
  · have hshape : j.shape = .error flaw' := by
      cases j with
      | null => cases h
      | _ => simp only [shape, htag]
    cases hshape.symm.trans h
    exact hasFlaw_of_tag htag
  · rw [tag_eq_ok_iff] at htag
    rcases hchildren : j.field? "children" with - | under
    · rw [shape_eq_map_asToken htag hchildren] at h
      rcases htoken : j.asToken tag with flaw' | t
      · rw [htoken] at h
        cases h
        exact hasFlaw_of_asToken htag hchildren htoken
      · rw [htoken] at h
        cases h
    · rw [shape_eq_map_childItems htag hchildren] at h
      rcases hitems : under.childItems with flaw' | items
      · rw [hitems] at h
        cases h
        exact hasFlaw_of_childItems ⟨tag, htag⟩ hchildren hitems
      · rw [hitems] at h
        cases h

/-- Null apart, a node with a flaw has no shape. -/
theorem HasFlaw.shape_eq (h : j.HasFlaw flaw) (hnull : j ≠ .null) : j.shape = .error flaw := by
  cases h with
  | notObject hnot =>
    cases j with
    | null => exact absurd rfl hnull
    | obj fields => exact absurd rfl (hnot fields)
    | _ => rfl
  | missingTag htag =>
    simp only [shape, tag_of_not_hasTag htag]
  | childrenNotList htag hchildren hnone =>
    obtain ⟨tag, htag⟩ := htag
    rw [shape_eq_map_childItems htag hchildren, childItems_eq_error hnone]
    rfl
  | badOffsets htag hchildren hoffsets =>
    rw [shape_eq_map_asToken htag hchildren, asToken_of_no_offsets hoffsets]
    rfl
  | badText htag hchildren hoffsets htext =>
    rw [shape_eq_map_asToken htag hchildren, asToken_of_no_text hoffsets htext]
    rfl
  | reversed htag hchildren hoffsets htext hlt =>
    obtain ⟨text?, hspan⟩ := asToken_of_hasText hoffsets htext
    rw [shape_eq_map_asToken htag hchildren, hspan, Token.ofSpan_of_lt hlt]
    rfl

theorem HasFlaw.eq_notObject (h : HasFlaw .null flaw) : flaw = .notObject "NoneType" := by
  cases h with
  | notObject _ => rfl
  | childrenNotList htag _ _ =>
    obtain ⟨_, htag⟩ := htag
    cases htag
  | badOffsets htag _ _ => cases htag
  | badText htag _ _ _ => cases htag
  | reversed htag _ _ _ _ => cases htag

/-- A node has at most one flaw. -/
theorem HasFlaw.unique {flaw' : Flaw} (h : j.HasFlaw flaw) (h' : j.HasFlaw flaw') :
    flaw = flaw' := by
  by_cases hnull : j = .null
  · subst hnull
    rw [h.eq_notObject, h'.eq_notObject]
  · exact Except.error.inj ((h.shape_eq hnull).symm.trans (h'.shape_eq hnull))

/-! ## Values that follow the grammar -/

theorem IsNode.soundNode (h : j.IsNode) : j.SoundNode := by
  cases h with
  | null => exact Or.inl rfl
  | token htoken => exact Or.inr (Or.inl htoken)
  | branch htag hchildren hlists _ => exact Or.inr (Or.inr ⟨htag, _, _, hchildren, hlists⟩)

theorem IsNode.of_mem_listed (h : j.IsNode) (hc : c ∈ j.listed) : c.IsNode := by
  cases h with
  | null => exact absurd hc List.not_mem_nil
  | token htoken =>
    rw [listed, htoken.childless] at hc
    exact absurd hc List.not_mem_nil
  | branch _ hchildren hlists hall =>
    rw [listed_eq hchildren hlists] at hc
    exact hall c hc

/-- All nodes of a value that follows the grammar are well formed. -/
theorem IsNode.soundNode_at (h : j.IsNode) (hn : j.at? p = some n) : n.SoundNode := by
  induction p generalizing j with
  | nil =>
    obtain rfl := Option.some.inj hn
    exact h.soundNode
  | cons i p ih =>
    obtain ⟨c, hc, hn⟩ := at?_cons_eq_some_iff.1 hn
    exact ih (h.of_mem_listed (List.mem_of_getElem? hc)) hn

/-! ## The first flaw below a node -/

/-- **The first malformed node of a value that is a child of another**: where
it stands in the value, and its flaw. -/
structure FirstFlaw (j : Json) (p : List ℕ) (flaw : Flaw) : Prop where
  flawed : ∃ n, j.at? p = some n ∧ n.shape = .error flaw
  sound : ∀ q < p, ∀ n, j.at? q = some n → n.SoundNode

/-- The first malformed node of some children: which child it belongs to, and
where it stands there. The children before follow the grammar. -/
structure FirstFlawAmong (items : List Json) (i : ℕ) (p : List ℕ) (flaw : Flaw) : Prop where
  child : ∃ c, items[i]? = some c ∧ c.FirstFlaw p flaw
  earlier : ∀ k < i, ∀ c, items[k]? = some c → c.IsNode

theorem FirstFlawAmong.of_head {later : List Json} (h : c.FirstFlaw p flaw) :
    FirstFlawAmong (c :: later) 0 p flaw :=
  ⟨⟨c, rfl, h⟩, fun _ hk => absurd hk (Nat.not_lt_zero _)⟩

theorem FirstFlawAmong.cons {later : List Json} (hc : c.IsNode)
    (h : FirstFlawAmong later i p flaw) : FirstFlawAmong (c :: later) (i + 1) p flaw := by
  refine ⟨by simpa using h.child, ?_⟩
  intro k hk c' hc'
  cases k with
  | zero =>
    obtain rfl := Option.some.inj hc'
    exact hc
  | succ k => exact h.earlier k (Nat.lt_of_succ_lt_succ hk) c' hc'

/-- The malformed node, seen from the parent. -/
theorem FirstFlawAmong.flawed (h : FirstFlawAmong j.listed i p flaw) :
    ∃ n, j.at? (i :: p) = some n ∧ n.shape = .error flaw := by
  obtain ⟨c, hc, hfirst⟩ := h.child
  obtain ⟨n, hn, hshape⟩ := hfirst.flawed
  exact ⟨n, at?_cons_eq_some_iff.2 ⟨c, hc, hn⟩, hshape⟩

/-- The nodes before it, seen from the parent: those of earlier children, and
those of the same child that stand before it there. -/
theorem FirstFlawAmong.sound (h : FirstFlawAmong j.listed i p flaw) {k : ℕ}
    (hlt : k :: q < i :: p) (hn : j.at? (k :: q) = some n) : n.SoundNode := by
  obtain ⟨c, hc, hfirst⟩ := h.child
  obtain ⟨c', hc', hn⟩ := at?_cons_eq_some_iff.1 hn
  rcases List.cons_lt_cons_iff.1 hlt with hki | ⟨rfl, hqp⟩
  · exact (h.earlier k hki c' hc').soundNode_at hn
  · obtain rfl := Option.some.inj (hc.symm.trans hc')
    exact hfirst.sound q hqp n hn

end Json

/-! ## The flaw that the conversion finds -/

theorem bind_eq_error_iff {ε α β : Type} {x : Except ε α} {f : α → Except ε β} {e : ε} :
    x >>= f = .error e ↔ x = .error e ∨ ∃ a, x = .ok a ∧ f a = .error e := by
  cases x with
  | error e' =>
    constructor
    · intro h
      cases h
      exact Or.inl rfl
    · rintro (h | ⟨a, ha, -⟩)
      · cases h
        rfl
      · cases ha
  | ok a =>
    constructor
    · intro h
      exact Or.inr ⟨a, rfl, h⟩
    · rintro (h | ⟨a', ha, h⟩)
      · cases h
      · cases ha
        exact h

mutual

/-- **The conversion without frames fails at the first malformed node**, which
it finds below the given path. -/
theorem firstFlaw_of_nodesAt (nulls : NullPolicy) (path : List ℕ) (j : Json) (m : Malformed)
    (h : nodesAt nulls path j = .error m) :
    ∃ p, m.path = path ++ p ∧ j.FirstFlaw p m.flaw := by
  rcases hshape : j.shape with flaw | s
  · rw [nodesAt_of_flaw hshape] at h
    cases h
    refine ⟨[], (List.append_nil path).symm, ⟨j, rfl, hshape⟩, ?_⟩
    intro q hq
    exact absurd hq (List.not_lt_nil q)
  · cases s with
    | nothing =>
      rw [nodesAt_of_nothing hshape] at h
      cases h
    | token t =>
      rw [nodesAt_of_token hshape] at h
      cases h
    | branch tag children =>
      -- the children are smaller than the node, which ends the recursion
      have hsize := sizeOf_lt_of_shape hshape
      have hlisted := Json.listed_of_branch hshape
      rw [nodesAt_of_branch hshape] at h
      rcases bind_eq_error_iff.1 h with h | ⟨made, -, hmade⟩
      · obtain ⟨i, p, hpath, hfirst⟩ := firstFlaw_of_nodesBelow nulls path 0 children m h
        rw [← hlisted] at hfirst
        refine ⟨i :: p, by rw [hpath, Nat.zero_add], hfirst.flawed, ?_⟩
        intro q hq n hn
        cases q with
        | nil =>
          obtain rfl := Option.some.inj hn
          exact Json.soundNode_iff.2 ⟨_, hshape⟩
        | cons k q => exact hfirst.sound hq hn
      · cases hmade
termination_by sizeOf j

/-- So it does in a list of children. -/
theorem firstFlaw_of_nodesBelow (nulls : NullPolicy) (path : List ℕ) (next : ℕ)
    (children : List Json) (m : Malformed) (h : nodesBelow nulls path next children = .error m) :
    ∃ i p, m.path = path ++ (next + i) :: p ∧ Json.FirstFlawAmong children i p m.flaw := by
  cases children with
  | nil =>
    rw [nodesBelow] at h
    cases h
  | cons child later =>
    rw [nodesBelow] at h
    rcases bind_eq_error_iff.1 h with h | ⟨own, hown, h⟩
    · obtain ⟨p, hpath, hfirst⟩ := firstFlaw_of_nodesAt nulls _ child m h
      refine ⟨0, p, ?_, .of_head hfirst⟩
      rw [hpath, Nat.add_zero, List.append_assoc]
      rfl
    · obtain ⟨hchild, -⟩ := (nodesAt_eq_ok_iff nulls _ child own).1 hown
      rcases bind_eq_error_iff.1 h with h | ⟨others, -, h⟩
      · obtain ⟨i, p, hpath, hfirst⟩ := firstFlaw_of_nodesBelow nulls path (next + 1) later m h
        refine ⟨i + 1, p, ?_, .cons hchild hfirst⟩
        rw [hpath, Nat.add_assoc, Nat.add_comm 1 i]
      · cases h
termination_by sizeOf children

end

/-! ## Whole trees -/

namespace Json

variable {j n : Json} {p : List ℕ} {m m' : Malformed}

/-- **The first malformed node of an exported value**: the node at the path
is malformed by itself and has the flaw, and every node before it in document
order is well formed by itself. -/
structure IsFirstFlaw (j : Json) (m : Malformed) : Prop where
  flawed : ∃ n, j.at? m.path = some n ∧ ¬ n.SoundAt m.path ∧ n.HasFlaw m.flaw
  sound : ∀ q < m.path, ∀ n, j.at? q = some n → n.SoundAt q

/-- One of two different positions stands before the other, so a value has
one first malformed node. -/
theorem IsFirstFlaw.unique (h : j.IsFirstFlaw m) (h' : j.IsFirstFlaw m') : m = m' := by
  obtain ⟨n, hn, hbad, hflaw⟩ := h.flawed
  obtain ⟨n', hn', hbad', hflaw'⟩ := h'.flawed
  have hpath : m.path = m'.path := by
    rcases lt_trichotomy m.path m'.path with hlt | heq | hgt
    · exact absurd (h'.sound _ hlt n hn) hbad
    · exact heq
    · exact absurd (h.sound _ hgt n' hn') hbad'
  have hnode : n = n' := by
    rw [hpath, hn'] at hn
    exact (Option.some.inj hn).symm
  subst hnode
  cases m
  cases m'
  cases hpath
  cases hflaw.unique hflaw'
  rfl

/-- Where the root is well formed and its children follow the grammar, all
nodes are well formed. -/
theorem SoundRoot.soundAt (hroot : j.SoundRoot) (hall : ∀ c ∈ j.listed, c.IsNode)
    (hn : j.at? p = some n) : n.SoundAt p := by
  cases p with
  | nil =>
    obtain rfl := Option.some.inj hn
    exact hroot
  | cons i p =>
    obtain ⟨c, hc, hn⟩ := at?_cons_eq_some_iff.1 hn
    exact (hall c (List.mem_of_getElem? hc)).soundNode_at hn

/-- A root that is malformed by itself stands before all else. -/
theorem isFirstFlaw_root {flaw : Flaw} (hbad : ¬ j.SoundRoot) (hflaw : j.HasFlaw flaw) :
    j.IsFirstFlaw ⟨[], flaw⟩ :=
  ⟨⟨j, rfl, hbad, hflaw⟩, fun q hq => absurd hq (List.not_lt_nil q)⟩

/-- Otherwise the first malformed node is the first below the root. -/
theorem FirstFlawAmong.isFirstFlaw {i : ℕ} {flaw : Flaw} (hroot : j.SoundRoot)
    (h : FirstFlawAmong j.listed i p flaw) : j.IsFirstFlaw ⟨i :: p, flaw⟩ := by
  refine ⟨?_, ?_⟩
  · obtain ⟨n, hn, hshape⟩ := h.flawed
    refine ⟨n, hn, ?_, hasFlaw_of_shape hshape⟩
    intro hsound
    obtain ⟨s, hs⟩ := soundNode_iff.1 hsound
    cases hshape.symm.trans hs
  · intro q hq n hn
    cases q with
    | nil =>
      obtain rfl := Option.some.inj hn
      exact hroot
    | cons k q => exact h.sound hq hn

end Json

namespace Tree

variable {nulls : NullPolicy} {source : Source} {j : Json} {m : Malformed}

/-- A root that is malformed by itself is rejected for its own flaw. -/
theorem ofExport_of_not_soundRoot (h : ¬ j.SoundRoot) :
    ∃ flaw, j.HasFlaw flaw ∧ ∀ nulls source, ofExport nulls source j = .error ⟨[], flaw⟩ := by
  rcases htag : j.tag with flaw | tag
  · refine ⟨flaw, Json.hasFlaw_of_tag htag, fun nulls source => ?_⟩
    rw [ofExport, htag]
    rfl
  · have hfield := Json.tag_eq_ok_iff.1 htag
    rcases hchildren : j.field? "children" with - | under
    · exact absurd ⟨⟨tag, hfield⟩, Or.inl hchildren⟩ h
    · rcases hitems : under.childItems with flaw | items
      · refine ⟨flaw, Json.hasFlaw_of_childItems ⟨tag, hfield⟩ hchildren hitems, ?_⟩
        intro nulls source
        rw [ofExport, htag, Json.field, hchildren, Option.getD_some, hitems]
        rfl
      · have hlists := Json.childItems_eq_ok_iff.1 hitems
        exact absurd ⟨⟨tag, hfield⟩, Or.inr ⟨under, items, hchildren, hlists⟩⟩ h

/-- **A value is rejected exactly for its first malformed node.** -/
theorem ofExport_eq_error_iff : ofExport nulls source j = .error m ↔ j.IsFirstFlaw m := by
  by_cases hroot : j.SoundRoot
  · obtain ⟨⟨tag, htag⟩, items, hlists⟩ := Json.soundRoot_iff.1 hroot
    have hlisted := Json.listed_of_field hlists
    rw [ofExport_of_root nulls source htag hlists]
    rcases hnodes : nodesBelow nulls [] 0 items with m' | nodes
    · obtain ⟨i, p, hpath, hfirst⟩ := firstFlaw_of_nodesBelow nulls [] 0 items m' hnodes
      rw [List.nil_append, Nat.zero_add] at hpath
      rw [← hlisted] at hfirst
      have hm' : j.IsFirstFlaw m' := by
        have := hfirst.isFirstFlaw hroot
        rwa [← hpath] at this
      constructor
      · intro h
        cases h
        exact hm'
      · intro hm
        rw [hm.unique hm']
        rfl
    · obtain ⟨hall, -⟩ := (nodesBelow_eq_ok_iff nulls [] 0 items nodes).1 hnodes
      rw [← hlisted] at hall
      constructor
      · intro h
        cases h
      · intro hm
        obtain ⟨n, hn, hbad, -⟩ := hm.flawed
        exact absurd (hroot.soundAt hall hn) hbad
  · obtain ⟨flaw, hflaw, hrejected⟩ := ofExport_of_not_soundRoot hroot
    have hfirst := Json.isFirstFlaw_root hroot hflaw
    rw [hrejected]
    constructor
    · intro h
      cases h
      exact hfirst
    · intro hm
      rw [hm.unique hfirst]

/-- **A rejected value is reported at its first malformed node**, and the
message begins with the path of that node. The report is the same whether
null children are dropped or kept, and whatever the source is. Added to a
parsed file, the value leaves it without a tree and with this one message
after the errors that it had; its source stays as it is. -/
theorem rejection_names_first_flaw (h : ofExport nulls source j = .error m) :
    j.IsFirstFlaw m ∧
    m.message = "tree" ++ String.join (m.path.map fun i => ".children[" ++ toString i ++ "]") ++
      ": " ++ m.flaw.message ∧
    (∀ nulls' source', ofExport nulls' source' j = .error m) ∧
    ∀ nulls' path (file : ParsedFile), file.attach nulls' path j =
      ⟨{ file with tree? := none, errors := file.errors ++ [m.message] }, [.unusableTree path m]⟩ := by
  have hfirst := ofExport_eq_error_iff.1 h
  have hall : ∀ nulls' source', ofExport nulls' source' j = .error m :=
    fun _ _ => ofExport_eq_error_iff.2 hfirst
  refine ⟨hfirst, rfl, hall, ?_⟩
  intro nulls' path file
  rw [ParsedFile.attach, hall]

end Tree

/-- An integer stands where a node should, two branches down and after a
null. -/
def Json.integerAmongNodes : Json :=
  .obj [("tag", .str "root"), ("children", .arr [
    .obj [("tag", .str "a"), ("children", .arr [
      .null, .obj [("tag", .str "b"), ("children", .arr [.int 7])]])]])]

theorem Json.integerAmongNodes_rejected :
    Tree.ofExport .drop .absent integerAmongNodes = .error ⟨[0, 1, 0], .notObject "int"⟩ := by
  have hinner : nodesAt .drop [0, 1] (.obj [("tag", .str "b"), ("children", .arr [.int 7])]) =
      .error ⟨[0, 1, 0], .notObject "int"⟩ := by
    rw [nodesAt_of_branch rfl, nodesBelow, nodesAt_of_flaw rfl]
    rfl
  have houter : nodesAt .drop [0] (.obj [("tag", .str "a"), ("children", .arr [
      .null, .obj [("tag", .str "b"), ("children", .arr [.int 7])]])]) =
      .error ⟨[0, 1, 0], .notObject "int"⟩ := by
    rw [nodesAt_of_branch rfl, nodesBelow, nodesBelow]
    simp only [List.cons_append, List.nil_append, Nat.zero_add, hinner]
    rw [nodesAt_of_nothing rfl]
    rfl
  change convert .drop (.start _ 0 _) [] >>= _ = _
  rw [convert_start, nodesBelow]
  simp only [List.nil_append, houter]
  rfl

theorem Tree.integer_among_nodes_reported :
    Json.integerAmongNodes.IsFirstFlaw ⟨[0, 1, 0], .notObject "int"⟩ ∧
      Tree.ofExport .keep .absent Json.integerAmongNodes = .error ⟨[0, 1, 0], .notObject "int"⟩ :=
  have h := rejection_names_first_flaw Json.integerAmongNodes_rejected
  ⟨h.1, h.2.2.1 .keep .absent⟩

end DesignAtlas
