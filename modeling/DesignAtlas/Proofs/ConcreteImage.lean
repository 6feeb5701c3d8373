import DesignAtlas.Frontend.Concrete
import DesignAtlas.Proofs.Decoding
import DesignAtlas.Proofs.Leaves
import DesignAtlas.Proofs.Span

/-!
# The image of a concrete syntax tree

A concrete tree is exported first and built from the exported value then.
`Cst.image` says without that detour what comes out: a branch for a node, a
token for a token, and what null stands for where a part is not there.

An exported concrete tree always follows the grammar of exported trees, as
long as no token has a negative offset, and its mirror image is the image of
the concrete tree (`Cst.isNode_exported`). The span that a token gets is as
long as its text in bytes, so where the source has the text at the token's
offset, the span cuts out just that text (`Source.slice_eq_of_prefix`).
-/

namespace DesignAtlas

/-- A slice over the bytes of a text is the text. -/
theorem Source.slice_eq_of_prefix (source : Source) {raw : String} {offset : ℕ}
    (h : Utf8.encode raw <+: source.bytes.drop offset) :
    source.slice offset (offset + (Utf8.encode raw).length : ℕ) = raw := by
  obtain ⟨rest, hrest⟩ := h
  have hcut : cut source.bytes offset (offset + (Utf8.encode raw).length : ℕ) =
      Utf8.encode raw := by
    rw [cut_natCast, Nat.add_sub_cancel_left, ← hrest, List.take_left]
  rw [slice, hcut, Utf8.decode_encode]

/-- The token of a kind that covers its raw text from an offset on. -/
def Token.ofRaw (kind raw : String) (offset : Int) : Token where
  tag := kind
  start := offset
  stop := offset + (Utf8.encode raw).length
  text? := some raw
  start_le_stop := by omega

namespace Cst

/-- **A part that is there**: a node, or a token that is not missing and not
of an unknown kind. -/
def IsPresent : Cst → Prop
  | absent => False
  | token kind _ _ missing => missing = false ∧ kind ≠ "Unknown"
  | node _ _ => True

/-- No token that is there has a negative offset. -/
inductive OffsetsNonneg : Cst → Prop
  | absent : OffsetsNonneg absent
  | token {kind raw : String} {offset : Int} {missing : Bool} :
      ((token kind raw offset missing).IsPresent → 0 ≤ offset) →
      OffsetsNonneg (token kind raw offset missing)
  | node {kind : String} {children : List Cst} :
      (∀ c ∈ children, OffsetsNonneg c) → OffsetsNonneg (node kind children)

mutual

/-- **The nodes that a concrete tree stands for.** A node is a branch over
the nodes of its children in order, a token that is there is a token with its
raw text, and all else is what null stands for. -/
def image (nulls : NullPolicy) : Cst → List Node
  | absent => Json.nodesOfNull nulls
  | token kind raw offset missing =>
    if missing = false ∧ kind ≠ "Unknown" then [.token (.ofRaw kind raw offset)]
    else Json.nodesOfNull nulls
  | node kind children => [.branch kind (imageAll nulls children)]

/-- The nodes that concrete trees stand for, in order. -/
def imageAll (nulls : NullPolicy) : List Cst → List Node
  | [] => []
  | c :: cs => image nulls c ++ imageAll nulls cs

end

/-! ## The exported tree -/

theorem exported_token_of_present {kind raw : String} {offset : Int} {missing : Bool}
    (h : missing = false ∧ kind ≠ "Unknown") :
    (token kind raw offset missing).exported =
      .obj [("tag", .str kind), ("start", .int offset),
        ("end", .int (offset + (Utf8.encode raw).length)), ("text", .str raw)] := by
  rw [exported]
  simp [h.1, h.2]

theorem exported_token_of_not_present {kind raw : String} {offset : Int} {missing : Bool}
    (h : ¬ (missing = false ∧ kind ≠ "Unknown")) :
    (token kind raw offset missing).exported = .null := by
  have htest : (missing || kind == "Unknown") = true := by
    rcases missing with - | -
    · simpa using h
    · rfl
  rw [exported, if_pos htest]

/-- Null is exported for what is not there. -/
theorem isNull_exported (c : Cst) : c.exported.isNull = true ↔ ¬ c.IsPresent := by
  cases c with
  | absent => simp [exported, Json.isNull, IsPresent]
  | token kind raw offset missing =>
    by_cases h : missing = false ∧ kind ≠ "Unknown"
    · rw [exported_token_of_present h]
      simp [Json.isNull, IsPresent, h]
    · rw [exported_token_of_not_present h]
      simpa [Json.isNull, IsPresent] using h
  | node kind children => simp [exported, Json.isNull, IsPresent]

/-- A token that is there is exported as a token, and as this one. -/
theorem isToken_exported (nulls : NullPolicy) (raw : String) {kind : String} {offset : Int}
    {missing : Bool} (h : missing = false ∧ kind ≠ "Unknown") (hoffset : 0 ≤ offset) :
    (token kind raw offset missing).exported.IsToken ∧
      (token kind raw offset missing).exported.mirror nulls =
        [.token (.ofRaw kind raw offset)] := by
  rw [exported_token_of_present h]
  generalize hj : Json.obj [("tag", .str kind), ("start", .int offset),
    ("end", .int (offset + (Utf8.encode raw).length)), ("text", .str raw)] = j
  have hstart : j.field? "start" = some (.int offset) := by rw [← hj]; rfl
  have hstop : j.field? "end" = some (.int (offset + (Utf8.encode raw).length)) := by
    rw [← hj]; rfl
  have hle : offset ≤ offset + (Utf8.encode raw).length := by omega
  have htoken : j.IsToken := by
    rw [← hj]
    exact ⟨⟨_, rfl⟩, rfl, ⟨_, _, rfl, rfl, hoffset, hle⟩, Or.inr (Or.inr ⟨_, rfl⟩)⟩
  -- the texts went through code points, which show them as they were
  have htag : j.tagText = kind := by rw [← hj]; exact CodePoints.shown_ofString kind
  have htext : j.ownText? = some raw := by
    rw [← hj]; exact congrArg some (CodePoints.shown_ofString raw)
  have hspan : j.numberAt "start" ≤ j.numberAt "end" := by
    rwa [Json.numberAt_eq hstart, Json.numberAt_eq hstop]
  refine ⟨htoken, ?_⟩
  rw [Json.mirror_of_isToken htoken hspan]
  simp only [Json.mirrorToken, htag, htext, Json.numberAt_eq hstart, Json.numberAt_eq hstop]
  rfl

mutual

/-- **An exported concrete tree follows the grammar, and its mirror image is
the image of the concrete tree.** -/
theorem isNode_exported (nulls : NullPolicy) (c : Cst) (h : c.OffsetsNonneg) :
    c.exported.IsNode ∧ c.exported.mirror nulls = c.image nulls := by
  cases c with
  | absent =>
    rw [exported, image, Json.mirror]
    exact ⟨.null, if_pos rfl⟩
  | token kind raw offset missing =>
    by_cases hpresent : missing = false ∧ kind ≠ "Unknown"
    · cases h with
      | token hoffset =>
        obtain ⟨htoken, hmirror⟩ := isToken_exported nulls raw hpresent (hoffset hpresent)
        rw [hmirror, image, if_pos hpresent]
        exact ⟨.token htoken, rfl⟩
    · rw [exported_token_of_not_present hpresent, image, if_neg hpresent, Json.mirror]
      exact ⟨.null, if_pos rfl⟩
  | node kind children =>
    cases h with
    | node hchildren =>
      obtain ⟨hnodes, hmirror⟩ := isNode_exportedAll nulls children hchildren
      rw [exported, image]
      generalize hj : Json.obj [("tag", .str kind), ("children", .arr (exportedAll children))] = j
      have hunder : j.field? "children" = some (.arr (exportedAll children)) := by rw [← hj]; rfl
      have htag : j.field? "tag" = some (.str kind) := by rw [← hj]; rfl
      refine ⟨.branch ⟨_, htag⟩ hunder (.arr _) hnodes, ?_⟩
      rw [Json.mirror_of_children hunder, Json.listed_eq hunder (.arr _), hmirror,
        Json.tagText_eq htag, CodePoints.shown_ofString]

/-- So do the exported children of a node. -/
theorem isNode_exportedAll (nulls : NullPolicy) (cs : List Cst)
    (h : ∀ c ∈ cs, c.OffsetsNonneg) :
    (∀ j ∈ exportedAll cs, j.IsNode) ∧
      (exportedAll cs).flatMap (Json.mirror nulls) = imageAll nulls cs := by
  cases cs with
  | nil =>
    rw [exportedAll, imageAll]
    exact ⟨fun j hj => absurd hj List.not_mem_nil, rfl⟩
  | cons c cs =>
    obtain ⟨hc, hcs⟩ := List.forall_mem_cons.1 h
    obtain ⟨hnode, hmirror⟩ := isNode_exported nulls c hc
    obtain ⟨hnodes, hmirrors⟩ := isNode_exportedAll nulls cs hcs
    rw [exportedAll, imageAll, List.flatMap_cons, hmirror, hmirrors]
    exact ⟨List.forall_mem_cons.2 ⟨hnode, hnodes⟩, rfl⟩

end

/-! ## The tokens of the image -/

/-- The tokens that nodes consist of were made from raw texts, none at a
negative offset. -/
def MadeOfRaw (ns : List Node) : Prop :=
  ∀ t ∈ Node.tokensFrom .forward ns, ∃ kind raw, ∃ offset : ℕ, t = .ofRaw kind raw offset

theorem madeOfRaw_nodesOfNull (nulls : NullPolicy) : MadeOfRaw (Json.nodesOfNull nulls) := by
  intro t ht
  cases nulls with
  | drop => simp [Json.nodesOfNull, Node.tokensFrom] at ht
  | keep => simp [Json.nodesOfNull, Node.tokensFrom] at ht

mutual

/-- **Every token of the image was made from a raw text.** -/
theorem madeOfRaw_image (nulls : NullPolicy) (c : Cst) (h : c.OffsetsNonneg) :
    MadeOfRaw (c.image nulls) := by
  cases c with
  | absent =>
    rw [image]
    exact madeOfRaw_nodesOfNull nulls
  | token kind raw offset missing =>
    rw [image]
    split
    · rename_i hpresent
      cases h with
      | token hoffset =>
        obtain ⟨n, hn⟩ := Int.eq_ofNat_of_zero_le (hoffset hpresent)
        intro t ht
        rw [Node.tokensFrom, Node.tokensFrom, List.mem_singleton] at ht
        exact ⟨kind, raw, n, by rw [ht, hn]⟩
    · exact madeOfRaw_nodesOfNull nulls
  | node kind children =>
    cases h with
    | node hchildren =>
      intro t ht
      rw [image, Node.tokensFrom, List.append_nil] at ht
      exact madeOfRaw_imageAll nulls children hchildren t ht

theorem madeOfRaw_imageAll (nulls : NullPolicy) (cs : List Cst)
    (h : ∀ c ∈ cs, c.OffsetsNonneg) : MadeOfRaw (imageAll nulls cs) := by
  cases cs with
  | nil =>
    intro t ht
    simp [imageAll, Node.tokensFrom] at ht
  | cons c cs =>
    obtain ⟨hc, hcs⟩ := List.forall_mem_cons.1 h
    intro t ht
    rw [imageAll, Node.tokensFrom_append, List.mem_append] at ht
    rcases ht with ht | ht
    · exact madeOfRaw_image nulls c hc t ht
    · exact madeOfRaw_imageAll nulls cs hcs t ht

end

end Cst

/-- The exported root over a concrete tree is built, and gives its image. -/
theorem Tree.ofExport_syntaxTree (nulls : NullPolicy) (source : Source) {c : Cst}
    (h : c.OffsetsNonneg) :
    Tree.ofExport nulls source
        (.obj [("tag", .str "SyntaxTree"), ("children", .arr [c.exported])]) =
      .ok ⟨"SyntaxTree", c.image nulls, source.encoded⟩ := by
  obtain ⟨hnode, hmirror⟩ := c.isNode_exported nulls h
  generalize hj : Json.obj [("tag", .str "SyntaxTree"), ("children", .arr [c.exported])] = j
  have htag : j.field? "tag" = some (.str "SyntaxTree") := by rw [← hj]; rfl
  have hunder : j.field? "children" = some (.arr [c.exported]) := by rw [← hj]; rfl
  have hexport : j.IsExport :=
    ⟨⟨_, htag⟩, Or.inr ⟨_, _, hunder, .arr _, List.forall_mem_singleton.2 hnode⟩⟩
  rw [Tree.ofExport_of_isExport hexport, Json.mirrorTree, Json.tagText_eq htag,
    CodePoints.shown_ofString, Json.listed_eq hunder (.arr _), List.flatMap_singleton, hmirror]

namespace Concrete

variable {nulls : NullPolicy} {path : String} {source : Source} {c : Concrete}

/-! ## Parsed files -/

/-- What is noted of the errors that the parser reported. -/
def noted (path : String) (c : Concrete) : List Event :=
  let errors := c.diagnostics.filter Diagnostic.isError
  if errors.isEmpty then [] else [Event.syntaxErrors path errors.length]

theorem unusableTree_notMem_noted (m : Malformed) : .unusableTree path m ∉ c.noted path := by
  unfold noted
  intro hmem
  simp only at hmem
  split at hmem
  · exact absurd hmem List.not_mem_nil
  · cases List.mem_singleton.1 hmem

theorem parsedFile_of_not_present (h : ¬ c.root.IsPresent) :
    c.parsedFile nulls path source =
      ⟨⟨source, none, c.errorLines (c.diagnostics.filter Diagnostic.isError)⟩, c.noted path⟩ := by
  have hnull : c.root.exported.isNull = true := c.root.isNull_exported.2 h
  rw [parsedFile]
  simp only [hnull, if_true]
  rfl

theorem parsedFile_of_present (hpresent : c.root.IsPresent) (h : c.root.OffsetsNonneg) :
    c.parsedFile nulls path source =
      ⟨⟨source, some ⟨"SyntaxTree", c.root.image nulls, source.encoded⟩,
        c.errorLines (c.diagnostics.filter Diagnostic.isError)⟩, c.noted path⟩ := by
  have hnull : ¬ c.root.exported.isNull = true := fun hnull =>
    c.root.isNull_exported.1 hnull hpresent
  rw [parsedFile]
  simp only [hnull, ParsedFile.attach, Tree.ofExport_syntaxTree nulls source h,
    List.append_nil]
  rfl

/-- **The tree of a concrete tree is its image.** Where no token has a
negative offset, the exported tree is never malformed: the errors of the file
are those of the parser, and no event tells of an unusable tree. The file has
no tree if the root is not there, and else it has a root over the image. Every
token of the tree carries its raw text, which is as long in bytes as its span,
and is what the span covers wherever the source has that text at the token's
start. -/
theorem tree_eq_image (nulls : NullPolicy) (path : String) (source : Source) (c : Concrete)
    (h : c.root.OffsetsNonneg) :
    let file := c.parsedFile nulls path source
    file.value.source = source ∧
    file.value.errors = c.errorLines (c.diagnostics.filter Diagnostic.isError) ∧
    (∀ m, .unusableTree path m ∉ file.events) ∧
    (¬ c.root.IsPresent → file.value.tree? = none) ∧
    (c.root.IsPresent →
      file.value.tree? = some ⟨"SyntaxTree", c.root.image nulls, source.encoded⟩) ∧
    ∀ tree, file.value.tree? = some tree → ∀ t ∈ tree.root.tokens .forward,
      ∃ raw, t.text? = some raw ∧ 0 ≤ t.start ∧ t.stop - t.start = (Utf8.encode raw).length ∧
        (Utf8.encode raw <+: source.bytes.drop t.start.toNat →
          tree.source.slice t.start t.stop = raw) := by
  intro file
  by_cases hpresent : c.root.IsPresent
  · have hfile : file = _ := parsedFile_of_present hpresent h
    rw [hfile]
    refine ⟨rfl, rfl, unusableTree_notMem_noted, fun hnot => absurd hpresent hnot, fun _ => rfl, ?_⟩
    rintro tree htree t ht
    obtain rfl := Option.some.inj htree
    rw [Tree.root, Node.tokens, Node.tokensFrom, List.append_nil] at ht
    obtain ⟨kind, raw, offset, rfl⟩ := c.root.madeOfRaw_image nulls h t ht
    have hlength : (offset : Int) + (Utf8.encode raw).length - offset =
        (Utf8.encode raw).length := by omega
    refine ⟨raw, rfl, Int.natCast_nonneg offset, hlength, fun hraw => ?_⟩
    rw [Source.slice_encoded]
    exact source.slice_eq_of_prefix hraw
  · have hfile : file = _ := parsedFile_of_not_present hpresent
    rw [hfile]
    refine ⟨rfl, rfl, unusableTree_notMem_noted, fun _ => rfl, fun hthere => absurd hthere hpresent,
      ?_⟩
    intro tree htree
    cases htree

/-- A name with a letter of two bytes, among parts that are not there. Of the
messages one is an error. -/
def accented : Concrete where
  root := .node "CompilationUnit" [
    .absent, .token "Semicolon" "" 0 true, .token "Identifier" "é" 3 false,
    .token "Unknown" "?" 5 false]
  diagnostics := [⟨false, "unused"⟩, ⟨true, "a.sv:1:6: error: no name"⟩]
  report errors := "\n".intercalate (errors.map Diagnostic.text) ++ "\n\n1 error\n"

theorem offsetsNonneg_accented : accented.root.OffsetsNonneg := by
  refine .node fun c hc => ?_
  simp only [List.mem_cons, List.not_mem_nil, or_false] at hc
  rcases hc with rfl | rfl | rfl | rfl
  · exact .absent
  all_goals exact .token fun _ => by decide

theorem accented_name_covered :
    accented.root.OffsetsNonneg ∧ accented.root.IsPresent ∧
    (accented.parsedFile .keep "a.sv" (.text "ab é?")).value.errors =
      ["a.sv:1:6: error: no name", "1 error"] ∧
    ∃ tree, (accented.parsedFile .keep "a.sv" (.text "ab é?")).value.tree? = some tree ∧
      tree.children = [.branch "CompilationUnit"
        [.leaf, .leaf, .token (.ofRaw "Identifier" "é" 3), .leaf]] ∧
      tree.source.slice 3 5 = "é" := by
  have himage := tree_eq_image .keep "a.sv" (.text "ab é?") accented offsetsNonneg_accented
  have htree := himage.2.2.2.2.1 trivial
  have herrors : accented.errorLines (accented.diagnostics.filter Diagnostic.isError) =
      ["a.sv:1:6: error: no name", "1 error"] := by
    decide +kernel
  refine ⟨offsetsNonneg_accented, trivial, himage.2.1.trans herrors, _, htree, rfl, ?_⟩
  have hmem : Token.ofRaw "Identifier" "é" 3 ∈
      (Node.branch "SyntaxTree" (accented.root.image .keep)).tokens .forward := by
    simp [Node.tokens, Node.tokensFrom, Node.Direction.arrange, accented, Cst.image, Cst.imageAll,
      Json.nodesOfNull]
  obtain ⟨raw, hraw, -, -, hslice⟩ := himage.2.2.2.2.2 _ htree _ hmem
  obtain rfl := Option.some.inj hraw
  exact hslice (by decide +kernel)

end Concrete

end DesignAtlas
