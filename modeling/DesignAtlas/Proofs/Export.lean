import DesignAtlas.Syntax.Export

/-!
# Exported trees: what is accepted, and what becomes of it

`Json.IsNode` and `Json.IsExport` are the grammar of exported trees, and
`Json.mirror` is the conversion by recursion on the value, without frames
and without errors. A value is accepted exactly when it follows the
grammar, and then its tree is its mirror image.

The conversion keeps a frame for every branch that is being filled.
`nodesBelow` is the same conversion without frames: it goes through a list
of children, and into each branch when it comes to it. The frames that are
left at some point owe what the recursion makes of them (`owed`), so both
give the same nodes and the same first flaw (`convert_eq_owed`).
-/

namespace DesignAtlas

namespace Json

/-! ## The grammar -/

/-- The value is an object with a text under `tag`; no other value has
fields. -/
def HasTag (j : Json) : Prop := ∃ tag, j.field? "tag" = some (.str tag)

/-- The nodes that a value under `children` lists; null lists none. -/
inductive Lists : Json → List Json → Prop
  | null : Lists .null []
  | arr (items : List Json) : Lists (.arr items) items

/-- **An exported token**: an object with a tag and no field `children`,
with whole numbers `0 ≤ start ≤ end`, and with no text, null or a text under
`text`. -/
structure IsToken (j : Json) : Prop where
  tag : j.HasTag
  childless : j.field? "children" = none
  span : ∃ start stop, j.field? "start" = some (.int start) ∧ j.field? "end" = some (.int stop) ∧
    0 ≤ start ∧ start ≤ stop
  text : j.field? "text" = none ∨ j.field? "text" = some .null ∨
    ∃ s, j.field? "text" = some (.str s)

/-- **An exported node**: null, a token, or a branch, which is an object
with a tag whose field `children` lists exported nodes. -/
inductive IsNode : Json → Prop
  | null : IsNode .null
  | token {j : Json} : j.IsToken → IsNode j
  | branch {j under : Json} {items : List Json} :
      j.HasTag → j.field? "children" = some under → under.Lists items →
      (∀ c ∈ items, IsNode c) → IsNode j

/-- **An exported tree**: an object with a tag whose children are absent or
list exported nodes. -/
structure IsExport (j : Json) : Prop where
  tag : j.HasTag
  children : j.field? "children" = none ∨
    ∃ under items, j.field? "children" = some under ∧ under.Lists items ∧ ∀ c ∈ items, c.IsNode

/-! ## The mirror image -/

/-- The text under `tag`, as it is shown. -/
def tagText (j : Json) : String :=
  match j.field? "tag" with
  | some (.str tag) => tag.shown
  | _ => ""

/-- The text under `text`, if there is one, as it is shown. -/
def ownText? (j : Json) : Option String :=
  match j.field? "text" with
  | some (.str s) => some s.shown
  | _ => none

/-- The whole number in a field. -/
def numberAt (j : Json) (name : String) : Int :=
  match j.field? name with
  | some (.int n) => n
  | _ => 0

/-- The values listed under `children`. -/
def listed (j : Json) : List Json :=
  match j.field? "children" with
  | some (.arr items) => items
  | _ => []

theorem sizeOf_lt_of_field? {j value : Json} {name : String} (h : j.field? name = some value) :
    sizeOf value < sizeOf j := by
  cases j with
  | obj fields =>
    have hlt := sizeOf_lt_of_lookup h
    rw [obj.sizeOf_spec]
    omega
  | _ => simp [field?] at h

theorem sizeOf_lt_of_mem_listed {j c : Json} (h : c ∈ j.listed) : sizeOf c < sizeOf j := by
  unfold listed at h
  split at h
  · rename_i items hfield
    have hlt := sizeOf_lt_of_field? hfield
    have hmem := List.sizeOf_lt_of_mem h
    rw [arr.sizeOf_spec] at hlt
    omega
  · exact absurd h List.not_mem_nil

/-- The nodes that null stands for: none where it is dropped, a leaf where
its place is kept. -/
def nodesOfNull : NullPolicy → List Node
  | .drop => []
  | .keep => [.leaf]

/-- The token that the fields of a node describe. -/
def mirrorToken (j : Json) (h : j.numberAt "start" ≤ j.numberAt "end") : Token :=
  ⟨j.tagText, j.numberAt "start", j.numberAt "end", j.ownText?, h⟩

/-- **The nodes that an exported node stands for**: those of null, or
one. A value with a field `children` stands for a branch over the
nodes of its children, and any other for a token. -/
def mirror (nulls : NullPolicy) (j : Json) : List Node :=
  if j.isNull then nodesOfNull nulls
  else if (j.field? "children").isSome then
    [.branch j.tagText (j.listed.attach.flatMap fun c => c.1.mirror nulls)]
  else if h : j.numberAt "start" ≤ j.numberAt "end" then
    [.token (j.mirrorToken h)]
  else []
termination_by sizeOf j
decreasing_by exact sizeOf_lt_of_mem_listed c.2

/-- **The tree that an exported value stands for**, over a source. -/
def mirrorTree (nulls : NullPolicy) (source : Source) (j : Json) : Tree :=
  ⟨j.tagText, j.listed.flatMap (mirror nulls), source.encoded⟩

/-! ## The mirror image of each kind of node -/

variable {nulls : NullPolicy} {j under : Json} {items : List Json}

theorem mirror_null : mirror nulls .null = nulls.node?.toList := by
  rw [mirror]
  cases nulls <;> rfl

theorem isNull_eq_false {name : String} (h : j.field? name = some under) : j.isNull = false := by
  cases j with
  | null => simp [field?] at h
  | _ => rfl

theorem mirror_of_children (hchildren : j.field? "children" = some under) :
    mirror nulls j = [.branch j.tagText (j.listed.flatMap (mirror nulls))] := by
  rw [mirror, isNull_eq_false hchildren, if_neg Bool.false_ne_true, hchildren, Option.isSome_some,
    if_pos rfl, List.flatMap_subtype (fun c _ => rfl), List.unattach_attach]

theorem mirror_of_isToken (h : j.IsToken) (hspan : j.numberAt "start" ≤ j.numberAt "end") :
    mirror nulls j = [.token (j.mirrorToken hspan)] := by
  obtain ⟨tag, htag⟩ := h.tag
  rw [mirror, isNull_eq_false htag, if_neg Bool.false_ne_true, h.childless, Option.isSome_none,
    if_neg Bool.false_ne_true, dif_pos hspan]

/-! ## The parts of a node -/

theorem tag_eq_ok_iff {tag : CodePoints} : j.tag = .ok tag ↔ j.field? "tag" = some (.str tag) := by
  cases j with
  | obj fields =>
    unfold Json.tag
    simp only
    split
    · rename_i t ht
      rw [ht]
      simp
    · rename_i hnot
      simp only [reduceCtorEq, false_iff]
      exact fun h => hnot tag h
  | _ => simp [Json.tag, field?]

theorem childItems_eq_ok_iff : under.childItems = .ok items ↔ under.Lists items := by
  constructor
  · intro h
    cases under with
    | null =>
      obtain rfl := Except.ok.inj h
      exact .null
    | arr items' =>
      obtain rfl := Except.ok.inj h
      exact .arr items'
    | _ => cases h
  · rintro (- | -) <;> rfl

theorem offset?_eq_some_iff {n : Int} : j.offset? = some n ↔ j = .int n ∧ 0 ≤ n := by
  cases j with
  | int m =>
    simp only [offset?, Option.ite_none_right_eq_some, Option.some.injEq, int.injEq]
    constructor
    · rintro ⟨h, rfl⟩
      exact ⟨rfl, h⟩
    · rintro ⟨rfl, h⟩
      exact ⟨h, rfl⟩
  | _ => simp [offset?]

theorem offset?_field_eq_some_iff {name : String} {n : Int} :
    (j.field name).offset? = some n ↔ j.field? name = some (.int n) ∧ 0 ≤ n := by
  rw [offset?_eq_some_iff, field]
  cases j.field? name <;> simp

theorem tagText_eq {tag : CodePoints} (htag : j.field? "tag" = some (.str tag)) :
    j.tagText = tag.shown := by
  rw [tagText, htag]

theorem numberAt_eq {name : String} {n : Int} (h : j.field? name = some (.int n)) :
    j.numberAt name = n := by
  rw [numberAt, h]

theorem listed_eq (hchildren : j.field? "children" = some under) (hlists : under.Lists items) :
    j.listed = items := by
  rw [listed, hchildren]
  cases hlists <;> rfl

/-- The token of a node that follows the grammar. -/
theorem asToken_of_isToken {tag : CodePoints} (h : j.IsToken)
    (htag : j.field? "tag" = some (.str tag)) :
    ∃ hspan, j.asToken tag = .ok (j.mirrorToken hspan) := by
  obtain ⟨start, stop, hstart, hstop, hpos, hle⟩ := h.span
  have hstart' := offset?_field_eq_some_iff.2 ⟨hstart, hpos⟩
  have hstop' := offset?_field_eq_some_iff.2 ⟨hstop, Int.le_trans hpos hle⟩
  have hspan : j.numberAt "start" ≤ j.numberAt "end" := by
    rwa [numberAt_eq hstart, numberAt_eq hstop]
  refine ⟨hspan, ?_⟩
  have hofSpan : ∀ text?, Token.ofSpan tag start stop text? =
      .ok ⟨j.tagText, j.numberAt "start", j.numberAt "end", text?, hspan⟩ := by
    intro text?
    simp only [Token.ofSpan, dif_pos hle, tagText_eq htag, numberAt_eq hstart, numberAt_eq hstop]
  unfold asToken
  simp only [hstart', hstop']
  rcases h.text with htext | htext | ⟨s, htext⟩ <;>
    simp only [mirrorToken, field, ownText?, htext, Option.getD_none, Option.getD_some, hofSpan]

/-- Only such a node has a token. -/
theorem isToken_of_asToken {tag : CodePoints} {t : Token}
    (htag : j.field? "tag" = some (.str tag)) (hchildren : j.field? "children" = none)
    (h : j.asToken tag = .ok t) : j.IsToken := by
  unfold asToken at h
  split at h
  · rename_i start stop hstart hstop
    obtain ⟨hstart, hpos⟩ := offset?_field_eq_some_iff.1 hstart
    obtain ⟨hstop, -⟩ := offset?_field_eq_some_iff.1 hstop
    have hofSpan : ∀ text?, Token.ofSpan tag start stop text? = .ok t → start ≤ stop := by
      intro text? hok
      unfold Token.ofSpan at hok
      split at hok
      · assumption
      · cases hok
    refine ⟨⟨tag, htag⟩, hchildren, ⟨start, stop, hstart, hstop, hpos, ?_⟩, ?_⟩
    · split at h
      · exact hofSpan _ h
      · exact hofSpan _ h
      · cases h
    · rw [field] at h
      rcases htext : j.field? "text" with - | value
      · exact Or.inl rfl
      · rw [htext] at h
        cases value with
        | null => exact Or.inr (Or.inl rfl)
        | str s => exact Or.inr (Or.inr ⟨s, rfl⟩)
        | _ => cases h
  · cases h

/-! ## The shape of a node -/

theorem shape_eq_map_asToken {tag : CodePoints} (htag : j.field? "tag" = some (.str tag))
    (hchildren : j.field? "children" = none) : j.shape = (j.asToken tag).map .token := by
  have htag' : j.tag = .ok tag := tag_eq_ok_iff.2 htag
  cases j with
  | null => cases htag'
  | _ => simp only [shape, htag', hchildren]

theorem shape_eq_map_childItems {tag : CodePoints} (htag : j.field? "tag" = some (.str tag))
    (hchildren : j.field? "children" = some under) :
    j.shape = under.childItems.map (.branch tag.shown) := by
  have htag' : j.tag = .ok tag := tag_eq_ok_iff.2 htag
  cases j with
  | null => cases htag'
  | _ => simp only [shape, htag', hchildren]

theorem shape_of_isToken (h : j.IsToken) :
    ∃ hspan, j.shape = .ok (.token (j.mirrorToken hspan)) := by
  obtain ⟨tag, htag⟩ := h.tag
  obtain ⟨hspan, htoken⟩ := asToken_of_isToken h htag
  refine ⟨hspan, ?_⟩
  rw [shape_eq_map_asToken htag h.childless, htoken]
  rfl

theorem shape_of_children (htag : j.HasTag) (hchildren : j.field? "children" = some under)
    (hlists : under.Lists items) : j.shape = .ok (.branch j.tagText items) := by
  obtain ⟨tag, htag⟩ := htag
  rw [shape_eq_map_childItems htag hchildren, childItems_eq_ok_iff.2 hlists, tagText_eq htag]
  rfl

/-- **What a node without a flaw of its own can be**: null, a token, or an
object with a tag and a list of children. -/
theorem cases_of_shape {s : Shape} (h : j.shape = .ok s) :
    (j = .null ∧ s = .nothing) ∨ (j.IsToken ∧ ∃ hspan, s = .token (j.mirrorToken hspan)) ∨
      ∃ under items, j.HasTag ∧ j.field? "children" = some under ∧ under.Lists items ∧
        s = .branch j.tagText items := by
  by_cases hnull : j = .null
  · subst hnull
    exact Or.inl ⟨rfl, (Except.ok.inj h).symm⟩
  · have htag : j.HasTag := by
      rcases htag : j.tag with flaw | tag
      · cases j with
        | null => exact absurd rfl hnull
        | _ => simp [shape, htag] at h
      · exact ⟨tag, tag_eq_ok_iff.1 htag⟩
    obtain ⟨tag, htag⟩ := htag
    rcases hchildren : j.field? "children" with - | under
    · rcases hasToken : j.asToken tag with flaw | t
      · rw [shape_eq_map_asToken htag hchildren, hasToken] at h
        cases h
      · have htoken := isToken_of_asToken htag hchildren hasToken
        obtain ⟨hspan, hshape⟩ := shape_of_isToken htoken
        exact Or.inr (Or.inl ⟨htoken, hspan, Except.ok.inj (h.symm.trans hshape)⟩)
    · rcases hitems : under.childItems with flaw | items
      · rw [shape_eq_map_childItems htag hchildren, hitems] at h
        cases h
      · have hlists := childItems_eq_ok_iff.1 hitems
        have hshape := shape_of_children ⟨tag, htag⟩ hchildren hlists
        exact Or.inr (Or.inr ⟨under, items, ⟨tag, htag⟩, rfl, hlists,
          Except.ok.inj (h.symm.trans hshape)⟩)

/-! ## The grammar, shape by shape -/

theorem not_isNode_of_flaw {flaw : Flaw} (h : j.shape = .error flaw) : ¬ j.IsNode := by
  intro hnode
  cases hnode with
  | null => cases h
  | token htoken =>
    obtain ⟨hspan, hshape⟩ := shape_of_isToken htoken
    cases h.symm.trans hshape
  | branch htag hchildren hlists _ => cases h.symm.trans (shape_of_children htag hchildren hlists)

theorem eq_null_of_nothing (h : j.shape = .ok .nothing) : j = .null := by
  rcases cases_of_shape h with ⟨hnull, -⟩ | ⟨-, hspan, hs⟩ | ⟨under, items, -, -, -, hs⟩
  · exact hnull
  · cases hs
  · cases hs

/-- A token follows the grammar, and is its own mirror image. -/
theorem isNode_of_token (nulls : NullPolicy) {t : Token} (h : j.shape = .ok (.token t)) :
    j.IsNode ∧ mirror nulls j = [.token t] := by
  rcases cases_of_shape h with ⟨-, hs⟩ | ⟨htoken, hspan, hs⟩ | ⟨under, items, -, -, -, hs⟩
  · cases hs
  · cases hs
    exact ⟨.token htoken, mirror_of_isToken htoken hspan⟩
  · cases hs

/-- **A branch follows the grammar when its children do.** -/
theorem isNode_iff_of_branch (nulls : NullPolicy) {tag : String}
    (h : j.shape = .ok (.branch tag items)) :
    (j.IsNode ↔ ∀ c ∈ items, c.IsNode) ∧
      mirror nulls j = [.branch tag (items.flatMap (mirror nulls))] := by
  rcases cases_of_shape h with ⟨-, hs⟩ | ⟨-, hspan, hs⟩ | ⟨under, _, htag, hchildren, hlists, hs⟩
  · cases hs
  · cases hs
  · cases hs
    refine ⟨⟨fun hnode => ?_, fun hall => .branch htag hchildren hlists hall⟩, ?_⟩
    · -- only the rule for branches fits a value with a field `children`
      cases hnode with
      | null => cases h
      | token htoken => cases htoken.childless.symm.trans hchildren
      | branch htag' hchildren' hlists' hall =>
        cases h.symm.trans (shape_of_children htag' hchildren' hlists')
        exact hall
    · rw [mirror_of_children hchildren, listed_eq hchildren hlists]

end Json

/-! ## The conversion without frames -/

variable {nulls : NullPolicy}

mutual

/-- **The nodes of one exported node, or the first flaw in it.** The path
leads to the node. -/
def nodesAt (nulls : NullPolicy) (path : List Nat) (j : Json) : Except Malformed (List Node) :=
  match _hs : j.shape with
  | .error flaw => .error ⟨path, flaw⟩
  | .ok .nothing => .ok nulls.node?.toList
  | .ok (.token t) => .ok [.token t]
  | .ok (.branch tag children) => do
    let made ← nodesBelow nulls path 0 children
    return [.branch tag made]
termination_by sizeOf j
decreasing_by
  have := sizeOf_lt_of_shape _hs
  omega

/-- The nodes of some children in order, or the first flaw. The path leads
to their parent, and the first of them stands at the position `next`. -/
def nodesBelow (nulls : NullPolicy) (path : List Nat) (next : Nat) :
    List Json → Except Malformed (List Node)
  | [] => .ok []
  | child :: later => do
    let own ← nodesAt nulls (path ++ [next]) child
    let others ← nodesBelow nulls path (next + 1) later
    return own ++ others
termination_by children => sizeOf children

end

section Shapes

variable {path : List Nat} {j : Json}

theorem nodesAt_of_flaw {flaw : Flaw} (h : j.shape = .error flaw) :
    nodesAt nulls path j = .error ⟨path, flaw⟩ := by
  rw [nodesAt]
  split <;> rename_i hshape <;> cases h.symm.trans hshape
  rfl

theorem nodesAt_of_nothing (h : j.shape = .ok .nothing) :
    nodesAt nulls path j = .ok nulls.node?.toList := by
  rw [nodesAt]
  split <;> rename_i hshape <;> cases h.symm.trans hshape
  rfl

theorem nodesAt_of_token {t : Token} (h : j.shape = .ok (.token t)) :
    nodesAt nulls path j = .ok [.token t] := by
  rw [nodesAt]
  split <;> rename_i hshape <;> cases h.symm.trans hshape
  rfl

theorem nodesAt_of_branch {tag : String} {children : List Json}
    (h : j.shape = .ok (.branch tag children)) :
    nodesAt nulls path j =
      nodesBelow nulls path 0 children >>= fun made => .ok [.branch tag made] := by
  rw [nodesAt]
  split <;> rename_i hshape <;> cases h.symm.trans hshape
  rfl

end Shapes

/-- A computation succeeds when its first part does, and what follows
does. -/
theorem bind_eq_ok_iff {ε α β : Type} {x : Except ε α} {f : α → Except ε β} {b : β} :
    x >>= f = .ok b ↔ ∃ a, x = .ok a ∧ f a = .ok b := by
  cases x with
  | error e =>
    constructor
    · intro h
      cases h
    · rintro ⟨a, h, -⟩
      cases h
  | ok a =>
    constructor
    · intro h
      exact ⟨a, rfl, h⟩
    · rintro ⟨a', ha, h⟩
      obtain rfl := Except.ok.inj ha
      exact h

mutual

/-- **Without frames, a node is accepted exactly when it follows the
grammar**, and its nodes are those of its mirror image. -/
theorem nodesAt_eq_ok_iff (nulls : NullPolicy) (path : List Nat) (j : Json) (nodes : List Node) :
    nodesAt nulls path j = .ok nodes ↔ j.IsNode ∧ nodes = j.mirror nulls := by
  rcases hshape : j.shape with flaw | s
  · simp [nodesAt_of_flaw hshape, Json.not_isNode_of_flaw hshape]
  · cases s with
    | nothing =>
      obtain rfl := Json.eq_null_of_nothing hshape
      rw [nodesAt_of_nothing hshape, Json.mirror_null, Except.ok.injEq, eq_comm]
      exact (and_iff_right .null).symm
    | token t =>
      obtain ⟨hnode, hmirror⟩ := Json.isNode_of_token nulls hshape
      rw [nodesAt_of_token hshape, hmirror, Except.ok.injEq, eq_comm]
      exact (and_iff_right hnode).symm
    | branch tag children =>
      obtain ⟨hnode, hmirror⟩ := Json.isNode_iff_of_branch nulls hshape
      -- the children are smaller than the node, which ends the recursion
      have hsize := sizeOf_lt_of_shape hshape
      rw [nodesAt_of_branch hshape, hnode, hmirror, bind_eq_ok_iff]
      constructor
      · rintro ⟨made, hmade, hnodes⟩
        obtain ⟨hchildren, rfl⟩ := (nodesBelow_eq_ok_iff nulls path 0 children made).1 hmade
        exact ⟨hchildren, (Except.ok.inj hnodes).symm⟩
      · rintro ⟨hchildren, rfl⟩
        exact ⟨_, (nodesBelow_eq_ok_iff nulls path 0 children _).2 ⟨hchildren, rfl⟩, rfl⟩
termination_by sizeOf j

/-- So are lists of children. -/
theorem nodesBelow_eq_ok_iff (nulls : NullPolicy) (path : List Nat) (next : Nat)
    (children : List Json) (nodes : List Node) :
    nodesBelow nulls path next children = .ok nodes ↔
      (∀ c ∈ children, c.IsNode) ∧ nodes = children.flatMap (Json.mirror nulls) := by
  cases children with
  | nil => simp [nodesBelow, eq_comm]
  | cons child later =>
    rw [nodesBelow, bind_eq_ok_iff, List.forall_mem_cons, List.flatMap_cons]
    constructor
    · rintro ⟨own, hown, hrest⟩
      obtain ⟨others, hothers, hnodes⟩ := bind_eq_ok_iff.1 hrest
      obtain ⟨hchild, rfl⟩ := (nodesAt_eq_ok_iff nulls _ child own).1 hown
      obtain ⟨hlater, rfl⟩ := (nodesBelow_eq_ok_iff nulls path (next + 1) later others).1 hothers
      exact ⟨⟨hchild, hlater⟩, (Except.ok.inj hnodes).symm⟩
    · rintro ⟨⟨hchild, hlater⟩, rfl⟩
      exact ⟨_, (nodesAt_eq_ok_iff nulls _ child _).2 ⟨hchild, rfl⟩, bind_eq_ok_iff.2
        ⟨_, (nodesBelow_eq_ok_iff nulls path (next + 1) later _).2 ⟨hlater, rfl⟩, rfl⟩⟩
termination_by sizeOf children

end

/-! ## The frames -/

namespace Frame

/-- The positions that lead to the branch of the top frame. -/
def home (top : Frame) (below : List Frame) : List Nat :=
  ((top :: below).dropLast.map Frame.position).reverse

@[simp]
theorem home_push (top : Frame) (n : Option Node) (below : List Frame) :
    (top.push n).home below = top.home below := by
  cases below <;> rfl

@[simp]
theorem home_advance (top : Frame) (later : List Json) (below : List Frame) :
    (top.advance later).home below = top.home below := by
  cases below <;> rfl

theorem home_cons (top parent : Frame) (below : List Frame) :
    top.home (parent :: below) = parent.home below ++ [top.position] := by
  simp only [home, List.dropLast_cons_cons, List.map_cons, List.reverse_cons]

theorem made_reverse_push (top : Frame) (n : Option Node) :
    (top.push n).made.reverse = top.made.reverse ++ n.toList := by
  cases n <;> simp [push]

end Frame

variable {top : Frame} {below : List Frame}

/-- What the frames below a branch make in the end, once the nodes of that
branch are known: each adds the branch above it to its own nodes, and
converts the children that it still has. -/
def finish (nulls : NullPolicy) (tag : String) (made : List Node) :
    List Frame → Except Malformed (List Node)
  | [] => .ok made
  | parent :: below => do
    let later ← nodesBelow nulls (parent.home below) parent.next parent.pending
    finish nulls parent.tag (parent.made.reverse ++ [.branch tag made] ++ later) below

/-- What the top frame and those below it make in the end. -/
def owed (nulls : NullPolicy) (top : Frame) (below : List Frame) :
    Except Malformed (List Node) := do
  let later ← nodesBelow nulls (top.home below) top.next top.pending
  finish nulls top.tag (top.made.reverse ++ later) below

theorem finish_cons (tag : String) (made : List Node) (parent : Frame) :
    finish nulls tag made (parent :: below) =
      owed nulls (parent.push (some (.branch tag made))) below := by
  rw [owed, Frame.home_push, Frame.made_reverse_push]
  rfl

/-- What is owed once the first child has given its node, if it has one. -/
theorem owed_advance (n : Option Node) (later : List Json) :
    owed nulls ((top.push n).advance later) below =
      nodesBelow nulls (top.home below) (top.next + 1) later >>= fun others =>
        finish nulls top.tag (top.made.reverse ++ (n.toList ++ others)) below := by
  have hmade : ((top.push n).advance later).made.reverse = top.made.reverse ++ n.toList :=
    top.made_reverse_push n
  rw [owed, Frame.home_advance, Frame.home_push, hmade]
  simp only [List.append_assoc]
  rfl

/-- What is owed while there are children: the nodes of the first, then of
those after it. -/
theorem owed_of_cons {child : Json} {later : List Json} (h : top.pending = child :: later) :
    owed nulls top below =
      nodesAt nulls (top.home below ++ [top.next]) child >>= fun own =>
        nodesBelow nulls (top.home below) (top.next + 1) later >>= fun others =>
          finish nulls top.tag (top.made.reverse ++ (own ++ others)) below := by
  rw [owed, h]
  simp only [nodesBelow, bind_assoc, pure_bind]

/-- **The loop makes what its frames owe.** The induction is along the
loop, so at every point of it the frames that are left make what the
recursion says. -/
theorem convert_eq_owed (nulls : NullPolicy) (top : Frame) (below : List Frame) :
    convert nulls top below = owed nulls top below := by
  fun_induction convert nulls top below with
  | case1 top hpending =>
    rw [owed, hpending, nodesBelow]
    change _ = Except.ok _
    rw [List.append_nil]
  | case2 top hpending parent below ih =>
    have hdone : owed nulls top (parent :: below) =
        finish nulls top.tag (top.made.reverse ++ []) (parent :: below) := by
      rw [owed, hpending, nodesBelow]
      rfl
    rw [ih, hdone, finish_cons, List.append_nil]
    rfl
  | case3 top below child later hpending flaw hshape =>
    rw [owed_of_cons hpending, nodesAt_of_flaw hshape]
    rfl
  | case4 top below child later hpending hshape ih =>
    rw [ih, owed_advance, owed_of_cons hpending, nodesAt_of_nothing hshape]
    rfl
  | case5 top below child later hpending t hshape ih =>
    rw [ih, owed_advance, owed_of_cons hpending, nodesAt_of_token hshape]
    rfl
  | case6 top below child later hpending tag children hshape ih =>
    -- the new frame owes its own nodes first, and then the frame below it goes on
    have hbelow : ∀ made, finish nulls tag made (top.advance later :: below) =
        nodesBelow nulls (top.home below) (top.next + 1) later >>= fun others =>
          finish nulls top.tag (top.made.reverse ++ ([.branch tag made] ++ others)) below := by
      intro made
      rw [finish_cons]
      exact owed_advance (some (.branch tag made)) later
    have hhome : (Frame.start tag top.next children).home (top.advance later :: below) =
        top.home below ++ [top.next] := by
      rw [Frame.home_cons, Frame.home_advance]
      rfl
    rw [ih, owed, hhome, owed_of_cons hpending, nodesAt_of_branch hshape, bind_assoc]
    refine congrArg _ (funext fun made => ?_)
    exact hbelow made

/-- Children that no frame is above are converted by the recursion. -/
theorem convert_start (tag : String) (children : List Json) :
    convert nulls (.start tag 0 children) [] = nodesBelow nulls [] 0 children := by
  rw [convert_eq_owed, owed]
  exact bind_pure _

/-! ## Whole trees -/

theorem mapError_eq_ok_iff {ε ε' α : Type} {x : Except ε α} {f : ε → ε'} {a : α} :
    x.mapError f = .ok a ↔ x = .ok a := by
  cases x with
  | error e => exact ⟨nofun, nofun⟩
  | ok b =>
    constructor
    · intro h
      rw [Except.ok.inj h]
    · intro h
      rw [Except.ok.inj h]
      rfl

namespace Json

variable {j : Json} {items : List Json}

/-- An absent field lists the children that null does: none. -/
theorem listed_of_field (h : (j.field "children").Lists items) : j.listed = items := by
  rw [field] at h
  rcases hchildren : j.field? "children" with - | under
  · rw [hchildren] at h
    rw [listed, hchildren]
    cases h
    rfl
  · rw [hchildren] at h
    exact listed_eq hchildren h

theorem isExport_iff :
    j.IsExport ↔ j.HasTag ∧ ∃ items, (j.field "children").Lists items ∧ ∀ c ∈ items, c.IsNode := by
  constructor
  · rintro ⟨htag, hnone | ⟨under, items, hsome, hlists, hall⟩⟩
    · refine ⟨htag, [], ?_, by simp⟩
      rw [field, hnone]
      exact .null
    · refine ⟨htag, items, ?_, hall⟩
      rwa [field, hsome]
  · rintro ⟨htag, items, hlists, hall⟩
    refine ⟨htag, ?_⟩
    rw [field] at hlists
    rcases hchildren : j.field? "children" with - | under
    · exact Or.inl rfl
    · rw [hchildren] at hlists
      exact Or.inr ⟨under, items, rfl, hlists, hall⟩

end Json

/-- **Below a root that is an object with a tag and a list of children,
the conversion of the children decides.** -/
theorem Tree.ofExport_of_root (nulls : NullPolicy) (source : Source) {j : Json} {tag : CodePoints}
    {items : List Json} (htag : j.field? "tag" = some (.str tag))
    (hlists : (j.field "children").Lists items) :
    Tree.ofExport nulls source j =
      (nodesBelow nulls [] 0 items).map fun nodes => ⟨tag.shown, nodes, source.encoded⟩ := by
  rw [ofExport, Json.tag_eq_ok_iff.2 htag, Json.childItems_eq_ok_iff.2 hlists]
  change (convert nulls (.start tag.shown 0 items) [] >>= fun nodes => .ok _) = _
  rw [convert_start]
  cases nodesBelow nulls [] 0 items <;> rfl

/-- **A value is accepted exactly when it is an exported tree, and then its
tree is its mirror image**, whether null children are dropped or kept. -/
theorem Tree.ofExport_eq_ok_iff (nulls : NullPolicy) (source : Source) (j : Json) (t : Tree) :
    Tree.ofExport nulls source j = .ok t ↔ j.IsExport ∧ t = j.mirrorTree nulls source := by
  rw [Json.isExport_iff, ofExport, bind_eq_ok_iff]
  constructor
  · rintro ⟨tag, htag, hrest⟩
    obtain ⟨items, hitems, hrest⟩ := bind_eq_ok_iff.1 hrest
    obtain ⟨nodes, hnodes, ht⟩ := bind_eq_ok_iff.1 hrest
    have htag := Json.tag_eq_ok_iff.1 (mapError_eq_ok_iff.1 htag)
    have hlists := Json.childItems_eq_ok_iff.1 (mapError_eq_ok_iff.1 hitems)
    rw [convert_start] at hnodes
    obtain ⟨hall, rfl⟩ := (nodesBelow_eq_ok_iff nulls [] 0 items nodes).1 hnodes
    refine ⟨⟨⟨tag, htag⟩, items, hlists, hall⟩, ?_⟩
    rw [Json.mirrorTree, Json.tagText_eq htag, Json.listed_of_field hlists]
    exact (Except.ok.inj ht).symm
  · rintro ⟨⟨⟨tag, htag⟩, items, hlists, hall⟩, rfl⟩
    have hitems := mapError_eq_ok_iff (f := (⟨[], ·⟩ : Flaw → Malformed)).2
      (Json.childItems_eq_ok_iff.2 hlists)
    have hnodes := (nodesBelow_eq_ok_iff nulls [] 0 items _).2 ⟨hall, rfl⟩
    rw [← convert_start tag.shown] at hnodes
    refine ⟨tag, mapError_eq_ok_iff.2 (Json.tag_eq_ok_iff.2 htag), ?_⟩
    refine bind_eq_ok_iff.2 ⟨items, hitems, bind_eq_ok_iff.2 ⟨_, hnodes, ?_⟩⟩
    rw [Json.mirrorTree, Json.tagText_eq htag, Json.listed_of_field hlists]
    rfl

end DesignAtlas
