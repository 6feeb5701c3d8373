import DesignAtlas.Json.Basic
import DesignAtlas.Syntax.Node

/-!
# Exported trees

Parsers export a tree as a JSON value: an object with a `tag`, and either `children`,
a list whose items may be null, or the byte offsets `start` and `end` of a token and
sometimes its `text`. `Tree.ofExport` turns such a value into a tree or says which
node of it is malformed.

The value may be nested very deeply, so it is converted with an explicit stack: one
`Frame` for every branch that is being filled. The first malformed node in document
order is the one reported, with its path of positions in the exported lists.
-/

namespace DesignAtlas

/-- What is wrong with one node of an exported tree. -/
inductive Flaw where
  /-- The value is no object. -/
  | notObject (kind : String)
  /-- The object has no text under `tag`. -/
  | missingTag
  /-- What stands under `children` is no list. -/
  | childrenNotList
  /-- The offsets of a token are not both whole numbers from zero on. -/
  | badOffsets (tag : CodePoints)
  /-- The text of a token is no text. -/
  | badText (tag : CodePoints)
  /-- A token ends before it starts. -/
  | reversed (tag : CodePoints) (start stop : Int)
  deriving DecidableEq, Repr

/-- The wording of a flaw. -/
def Flaw.message : Flaw → String
  | .notObject kind => s!"expected an object, got {kind}"
  | .missingTag => "missing 'tag'"
  | .childrenNotList => "'children' must be a list"
  | .badOffsets tag => s!"token {tag.quoted} needs integer 'start' and 'end'"
  | .badText tag => s!"token {tag.quoted} has non-string 'text'"
  | .reversed tag start stop =>
    s!"token {tag.quoted} ends before it starts ({start} > {stop})"

/-- A malformed node: the positions that lead to it from the root, and its flaw. -/
structure Malformed where
  path : List Nat
  flaw : Flaw
  deriving DecidableEq, Repr

/-- The wording of a path. -/
def Malformed.pathText (path : List Nat) : String :=
  "tree" ++ String.join (path.map fun i => s!".children[{i}]")

/-- The wording of an error: where, then what. -/
def Malformed.message (m : Malformed) : String :=
  Malformed.pathText m.path ++ ": " ++ m.flaw.message

/-- A token over a span, unless the span is reversed. -/
def Token.ofSpan (tag : CodePoints) (start stop : Int) (text? : Option String) :
    Except Flaw Token :=
  if h : start ≤ stop then .ok ⟨tag.shown, start, stop, text?, h⟩
  else .error (.reversed tag start stop)

namespace Json

/-- What one node of an exported tree is by itself, its children not looked at. -/
inductive Shape where
  | nothing
  | token (t : Token)
  | branch (tag : String) (children : List Json)

/-- The tag of an exported node. -/
def tag (j : Json) : Except Flaw CodePoints :=
  match j with
  | .obj _ =>
    match j.field? "tag" with
    | some (.str tag) => .ok tag
    | _ => .error .missingTag
  | _ => .error (.notObject j.kindName)

/-- The exported children that stand under `children`. Null stands for none. -/
def childItems : Json → Except Flaw (List Json)
  | .null => .ok []
  | .arr items => .ok items
  | _ => .error .childrenNotList

/-- A byte offset: a whole number from zero on. -/
def offset? : Json → Option Int
  | .int n => if 0 ≤ n then some n else none
  | _ => none

/-- The token that an exported node without children describes. -/
def asToken (j : Json) (tag : CodePoints) : Except Flaw Token :=
  match (j.field "start").offset?, (j.field "end").offset? with
  | some start, some stop =>
    match j.field "text" with
    | .null => Token.ofSpan tag start stop none
    | .str s => Token.ofSpan tag start stop (some s.shown)
    | _ => .error (.badText tag)
  | _, _ => .error (.badOffsets tag)

/-- The shape of an exported node. A node with a field `children` is a branch, even
when the field is null; any other object is a token. -/
def shape : Json → Except Flaw Shape
  | .null => .ok .nothing
  | j =>
    match j.tag with
    | .error flaw => .error flaw
    | .ok tag =>
      match j.field? "children" with
      | some under => under.childItems.map (.branch tag.shown)
      | none => (j.asToken tag).map .token

end Json

/-- How null children are treated: dropped, or kept as leaves so that positions stay
the same. -/
inductive NullPolicy where
  | drop
  | keep
  deriving DecidableEq, Repr, Inhabited

/-- The node that stands for a null child, if any. -/
def NullPolicy.node? : NullPolicy → Option Node
  | .drop => none
  | .keep => some .leaf

/-- A branch that is being filled: its tag, its position among the children of its
parent, the children still to convert, the position of the next of them, and the
nodes made so far, last first. -/
structure Frame where
  tag : String
  position : Nat
  pending : List Json
  next : Nat
  made : List Node

namespace Frame

/-- The frame of a branch before any of its children is made. -/
def start (tag : String) (position : Nat) (children : List Json) : Frame :=
  ⟨tag, position, children, 0, []⟩

/-- The branch of a frame. -/
def close (f : Frame) : Node := .branch f.tag f.made.reverse

/-- Adds a node, if there is one. -/
def push (f : Frame) (n : Option Node) : Frame :=
  { f with made := n.toList ++ f.made }

/-- Goes on to the remaining children. -/
def advance (f : Frame) (rest : List Json) : Frame :=
  { f with pending := rest, next := f.next + 1 }

/-- The path to the next child of a frame above the given ones. The last frame is that
of the root, which has no position. -/
def path (top : Frame) (below : List Frame) : List Nat :=
  ((top :: below).dropLast.map Frame.position).reverse ++ [top.next]

end Frame

theorem sizeOf_lt_of_lookup {fields : List (CodePoints × Json)} {name : CodePoints} {j : Json}
    (h : fields.lookup name = some j) : sizeOf j < sizeOf fields := by
  induction fields with
  | nil => simp at h
  | cons field rest ih =>
    obtain ⟨n, v⟩ := field
    rw [List.lookup_cons] at h
    split at h
    · obtain rfl := Option.some.inj h
      simp only [List.cons.sizeOf_spec, Prod.mk.sizeOf_spec]
      omega
    · have := ih h
      simp only [List.cons.sizeOf_spec]
      omega

/-- The children of an exported node are smaller than the node. -/
theorem sizeOf_lt_of_shape {j : Json} {tag : String} {children : List Json}
    (h : j.shape = .ok (.branch tag children)) : sizeOf children + 1 < sizeOf j := by
  cases j with
  | obj fields =>
    simp only [Json.shape, Json.field?] at h
    split at h
    · contradiction
    · split at h
      · rename_i under hl
        have hlt := sizeOf_lt_of_lookup hl
        cases under <;> simp only [Json.childItems, Except.map] at h <;> try contradiction
        all_goals
          injection h with h
          injection h with _ h
          subst h
          simp at hlt ⊢
          omega
      · simp only [Except.map] at h
        split at h <;> simp at h
  | _ => simp [Json.shape, Json.tag] at h

/-- The size of what is left of some frames. -/
noncomputable def Frame.left : List Frame → Nat
  | [] => 0
  | f :: below => sizeOf f.pending + 1 + Frame.left below

/-- Converts what is left of the top frame and of the frames below it. -/
def convert (nulls : NullPolicy) (top : Frame) (below : List Frame) :
    Except Malformed (List Node) :=
  match _hp : top.pending with
  | [] =>
    match below with
    | [] => .ok top.made.reverse
    | parent :: rest => convert nulls (parent.push (some top.close)) rest
  | child :: later =>
    match _hs : child.shape with
    | .error flaw => .error ⟨top.path below, flaw⟩
    | .ok .nothing => convert nulls ((top.push nulls.node?).advance later) below
    | .ok (.token t) => convert nulls ((top.push (some (.token t))).advance later) below
    | .ok (.branch tag children) =>
      convert nulls (.start tag top.next children) (top.advance later :: below)
termination_by Frame.left (top :: below)
decreasing_by
  all_goals simp only [Frame.push, Frame.advance, Frame.start, Frame.left, _hp,
    List.nil.sizeOf_spec, List.cons.sizeOf_spec]
  · omega
  · omega
  · omega
  · have := sizeOf_lt_of_shape _hs
    omega

/-- **The tree of an exported value** over a source. -/
def Tree.ofExport (nulls : NullPolicy) (source : Source) (j : Json) : Except Malformed Tree := do
  let tag ← j.tag.mapError (⟨[], ·⟩)
  let children ← (j.field "children").childItems.mapError (⟨[], ·⟩)
  return ⟨tag.shown, ← convert nulls (.start tag.shown 0 children) [], source.encoded⟩

end DesignAtlas
