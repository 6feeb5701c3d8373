import DesignAtlas.Proofs.CheckerRun
import DesignAtlas.Proofs.Correspondence
import DesignAtlas.Proofs.OrderedMap

/-!
# Results file by file

A run of the checker prints the entries of all files in one object, and they
are read in one pass. `Checker.results_isolated` says that the pass carries
nothing from one file to the next: in two runs that share an entry and the
source of its file, the file has the same result, whatever the other entries
of the two runs are. What the result is, errors included, is said by
`Checker.IsResult`, and how an error is worded by `Checker.Worded`.
-/

namespace DesignAtlas

/-- **A run that reports on files**: it printed an object with an entry for
each path. No path holds a NUL, and the errors of an entry, where it has some,
are a list. Nothing is asked of the entries beyond that. -/
structure ToolRun.Reports (run : ToolRun) (entries : List (String × Json)) : Prop where
  printed : run.Prints (entries.map fun x => (CodePoints.ofString x.1, x.2))
  paths : ∀ x ∈ entries, '\x00' ∉ x.1.toList
  errors : ∀ x ∈ entries,
    x.2.field? "errors" = none ∨ ∃ items, x.2.field? "errors" = some (.arr items)

theorem exists_mem_of_forall₂ {α β : Type} {R : α → β → Prop} {xs : List α} {ys : List β}
    (h : List.Forall₂ R xs ys) {x : α} (hx : x ∈ xs) : ∃ y ∈ ys, R x y := by
  induction h with
  | nil => cases hx
  | @cons a b as bs hab _ ih =>
    rcases List.mem_cons.1 hx with rfl | hx
    · exact ⟨b, List.mem_cons_self, hab⟩
    · obtain ⟨y, hy, hxy⟩ := ih hx
      exact ⟨y, List.mem_cons_of_mem b hy, hxy⟩

namespace ToolRun.Reports

variable {run : ToolRun} {entries : List (String × Json)}

/-- An object has no name twice, so a run reports on no path twice. -/
theorem nodup (h : run.Reports entries) : (entries.map Prod.fst).Nodup := by
  obtain ⟨status, output, errorText, -, hread⟩ := h.printed
  have hnames := Json.nodup_of_read hread
  rw [List.map_map] at hnames
  refine List.Nodup.of_map CodePoints.ofString ?_
  rwa [List.map_map]

theorem not_breaks (h : run.Reports entries) :
    ∀ x ∈ entries.map fun x => (CodePoints.ofString x.1, x.2), ∀ e, ¬ Checker.Breaks x.1 x.2 e := by
  intro x hx e
  obtain ⟨⟨path, j⟩, hmem, rfl⟩ := List.mem_map.1 hx
  refine Checker.not_breaks_of_path (h.paths _ hmem) (fun under hunder => ?_) e
  rcases h.errors _ hmem with hnone | ⟨items, hitems⟩
  · cases hnone.symm.trans hunder
  · obtain rfl := Option.some.inj (hitems.symm.trans hunder)
    trivial

/-- **A run that reports on files has a result for each of them**, in its
order. -/
theorem exists_files (h : run.Reports entries) (c : Checker) (disk : Disk) (paths : List String)
    (input? : Option String) :
    ∃ files, (c.parse disk run paths input?).value = .ok files ∧
      files.keys = entries.map Prod.fst ∧
      ∀ path j, (path, j) ∈ entries → ∃ file, files.get? path = some file ∧
        Checker.IsResult c.nulls (Checker.sourceOf disk input? path) j file := by
  obtain ⟨pairs, hvalue, hresults⟩ := c.parse_of_no_breaks disk paths input? h.printed
    h.not_breaks
  rw [List.forall₂_map_left_iff] at hresults
  have hkeys : entries.map Prod.fst = pairs.map Prod.fst := by
    refine map_eq_of_forall₂ hresults ?_
    rintro x pair ⟨hpath, -⟩
    rw [hpath, CodePoints.shown_ofString]
  -- no path comes twice, so the map has the results as they were read
  have hentries : (OrderedMap.ofList pairs).entries = pairs := by
    refine OrderedMap.entries_ofList ?_
    rw [← hkeys]
    exact h.nodup
  refine ⟨.ofList pairs, hvalue, ?_, fun path j hmem => ?_⟩
  · rw [OrderedMap.keys, hentries, hkeys]
  · obtain ⟨⟨shown, file⟩, hpair, hpath, hresult⟩ := exists_mem_of_forall₂ hresults hmem
    rw [CodePoints.shown_ofString] at hpath hresult
    obtain rfl : shown = path := hpath
    refine ⟨file, OrderedMap.get?_eq_some_iff.2 ?_, hresult⟩
    rwa [hentries]

end ToolRun.Reports

namespace Checker

/-- **The result of a file depends on its own entry and its own source.** Two
runs that report on files have results, each for its paths in its order, and
each result is the one that the entry of its path gives: its errors are worded
one by one, in order, and one more follows where its tree is malformed. A path
with the same entry and the same source in both has the same result, although
nothing else of the runs need be the same. -/
theorem results_isolated (c c' : Checker) (disk disk' : Disk) {run run' : ToolRun}
    {entries entries' : List (String × Json)} (paths paths' : List String)
    (input? input?' : Option String) (h : run.Reports entries) (h' : run'.Reports entries')
    (hnulls : c.nulls = c'.nulls) :
    ∃ files files', (c.parse disk run paths input?).value = .ok files ∧
      (c'.parse disk' run' paths' input?').value = .ok files' ∧
      files.keys = entries.map Prod.fst ∧
      (∀ path j, (path, j) ∈ entries → ∃ file, files.get? path = some file ∧
        IsResult c.nulls (sourceOf disk input? path) j file) ∧
      ∀ path j, (path, j) ∈ entries → (path, j) ∈ entries' →
        sourceOf disk input? path = sourceOf disk' input?' path →
        files.get? path = files'.get? path := by
  obtain ⟨files, hvalue, hkeys, hresults⟩ := h.exists_files c disk paths input?
  obtain ⟨files', hvalue', -, hresults'⟩ := h'.exists_files c' disk' paths' input?'
  refine ⟨files, files', hvalue, hvalue', hkeys, hresults, fun path j hmem hmem' hsource => ?_⟩
  obtain ⟨file, hfile, hresult⟩ := hresults path j hmem
  obtain ⟨file', hfile', hresult'⟩ := hresults' path j hmem'
  rw [← hnulls, ← hsource] at hresult'
  rw [hfile, hfile', hresult.unique hresult']

/-- The entry of a file with a tree and errors: two with a place, one without,
and one that is no object. -/
def treeEntry : Json := .obj [
  ("tree", .obj [("tag", .str "top")]),
  ("errors", .arr [
    .obj [("line", .int 3), ("column", .int 7), ("phase", .str "parse"), ("text", .str "x")],
    .obj [("line", .str " 4")],
    .obj [("text", .str "it's")],
    .null])]

/-- A run that prints the entry between other texts. -/
def printsAmong (status : Int) (before after : String) : ToolRun :=
  .finished status (before ++ "\x7b\"tree\":\x7b\"tag\":\"top\"\x7d,\"errors\":[" ++
    "\x7b\"line\":3,\"column\":7,\"phase\":\"parse\",\"text\":\"x\"\x7d," ++
    "\x7b\"line\":\" 4\"\x7d,\x7b\"text\":\"it's\"\x7d,null]\x7d" ++ after) ""

/-- The entry comes after one whose tree is malformed. -/
def afterMalformed : ToolRun :=
  printsAmong 1 "\x7b\"a.sv\":\x7b\"tree\":\x7b\"tag\":5\x7d\x7d,\"-\":" "\x7d"

/-- The entry comes before one that is no object. -/
def beforeNumber : ToolRun := printsAmong 0 "\x7b\"-\":" ",\"c.sv\":7\x7d"

set_option maxRecDepth 1000 in
theorem reports_afterMalformed : afterMalformed.Reports
    [("a.sv", .obj [("tree", .obj [("tag", .int 5)])]), ("-", treeEntry)] where
  printed := by
    refine ToolRun.prints_of_readText
      (by simp only [String.toList_append, String.reduceToList]; rfl) ?_
    rfl
  paths := by decide
  errors := by
    rw [List.forall_mem_cons, List.forall_mem_singleton]
    exact ⟨Or.inl rfl, Or.inr ⟨_, rfl⟩⟩

set_option maxRecDepth 1000 in
theorem reports_beforeNumber :
    beforeNumber.Reports [("-", treeEntry), ("c.sv", .int 7)] where
  printed := by
    refine ToolRun.prints_of_readText
      (by simp only [String.toList_append, String.reduceToList]; rfl) ?_
    rfl
  paths := by decide
  errors := by
    rw [List.forall_mem_cons, List.forall_mem_singleton]
    exact ⟨Or.inr ⟨_, rfl⟩, Or.inl rfl⟩

theorem isResult_treeEntry : IsResult .keep (.text "top") treeEntry
    ⟨.text "top", some ⟨"top", [], .stored [116, 111, 112]⟩,
      ["3:7: parse error at 'x'", "4:None:  error at ''", "?:  error at \"it's\"", "None"]⟩ := by
  have htree : Tree.ofExport .keep (.text "top") (.obj [("tag", .str "top")]) =
      .ok ⟨"top", [], .stored [116, 111, 112]⟩ := by
    have hbytes : (Source.text "top").encoded = .stored [116, 111, 112] := by decide +kernel
    rw [Tree.ofExport_of_root .keep (.text "top") (j := .obj [("tag", .str "top")]) rfl .null,
      nodesBelow, CodePoints.shown_ofString, hbytes]
    rfl
  refine .built (.list rfl ?_) rfl htree
  have hplaced : errorText (.obj [("line", .int 3), ("column", .int 7), ("phase", .str "parse"),
      ("text", .str "x")]) = "3:7: parse error at 'x'" := by decide +kernel
  have hblank : errorText (.obj [("line", .str " 4")]) = "4:None:  error at ''" := by
    decide +kernel
  have hunplaced : errorText (.obj [("text", .str "it's")]) = "?:  error at \"it's\"" := by
    decide +kernel
  exact .cons (worded_iff.2 hplaced) (.cons (worded_iff.2 hblank)
    (.cons (worded_iff.2 hunplaced) (.cons (worded_iff.2 rfl) .nil)))

theorem isResult_malformedEntry (source : Source) :
    IsResult .keep source (.obj [("tree", .obj [("tag", .int 5)])])
      ⟨source, none, ["tree: missing 'tag'"]⟩ := by
  have htree : (Json.obj [("tree", .obj [("tag", .int 5)])]).field "tree" =
      .obj [("tag", .int 5)] := rfl
  have herror : Tree.ofExport .keep source (.obj [("tag", .int 5)]) = .error ⟨[], .missingTag⟩ :=
    rfl
  exact IsResult.malformed (.absent rfl) htree (fun h => by cases h) herror

/-- The entry has its own source, tree and errors in both runs. -/
theorem neighbours_play_no_part :
    afterMalformed.Reports
      [("a.sv", .obj [("tree", .obj [("tag", .int 5)])]), ("-", treeEntry)] ∧
    beforeNumber.Reports [("-", treeEntry), ("c.sv", .int 7)] ∧
    ∃ files files', (parse ⟨"verible-verilog-syntax", .keep⟩ twoFiles afterMalformed
        ["a.sv", "-"] (some "top")).value = .ok files ∧
      (parse ⟨"checker", .keep⟩ default beforeNumber ["-"] (some "top")).value = .ok files' ∧
      files.keys = ["a.sv", "-"] ∧
      files.get? "a.sv" = some ⟨twoFiles.sourceAt "a.sv", none, ["tree: missing 'tag'"]⟩ ∧
      files.get? "-" = some ⟨.text "top", some ⟨"top", [], .stored [116, 111, 112]⟩,
        ["3:7: parse error at 'x'", "4:None:  error at ''", "?:  error at \"it's\"", "None"]⟩ ∧
      files.get? "-" = files'.get? "-" := by
  obtain ⟨files, files', hvalue, hvalue', hkeys, hresults, hsame⟩ :=
    results_isolated ⟨"verible-verilog-syntax", .keep⟩ ⟨"checker", .keep⟩ twoFiles default
      ["a.sv", "-"] ["-"] (some "top") (some "top") reports_afterMalformed reports_beforeNumber rfl
  obtain ⟨malformed, hmalformed, hresult⟩ := hresults "a.sv" _ List.mem_cons_self
  obtain ⟨entry, hentry, hresult'⟩ := hresults "-" treeEntry (by simp)
  rw [hresult.unique (isResult_malformedEntry _)] at hmalformed
  rw [hresult'.unique isResult_treeEntry] at hentry
  exact ⟨reports_afterMalformed, reports_beforeNumber, files, files', hvalue, hvalue', hkeys,
    hmalformed, hentry, hsame "-" treeEntry (by simp) (by simp) rfl⟩

end Checker

end DesignAtlas
