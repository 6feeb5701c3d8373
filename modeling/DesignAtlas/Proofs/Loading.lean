import DesignAtlas.Proofs.Accumulation
import DesignAtlas.Proofs.CheckerRun
import DesignAtlas.Proofs.Correspondence

/-!
# Files that are asked for

Which paths an analysis knows after loading files. Adding keeps every parsed
file, with a tree or as a failed one (`Analysis.files_addFiles`), so a path is
known exactly when the front-end gave a result for it.

The two front-ends differ in that. The concrete one goes through the paths
that it was asked for. The checker goes through the names that its program
printed, and does not compare them with what it was asked for: a path without
an entry is neither loaded nor failed (`Analysis.lost_iff_unnamed`).
-/

namespace DesignAtlas

namespace Analysis

/-! ## Adding -/

theorem files_addRecords (policy : NamePolicy) (a : Analysis) (rs : List ModuleRecord) :
    (a.addRecords policy rs).analysis.files = a.files := by
  induction rs generalizing a with
  | nil => rfl
  | cons r rs ih =>
    rw [addRecords]
    rcases a.design.add policy r with e | ⟨design, noted⟩
    · rfl
    · exact ih _

theorem files_addFile (v : Vocabulary) (policy : NamePolicy) (a : Analysis) (path : String)
    (file : ParsedFile) :
    (a.addFile v policy path file).analysis.files = a.files.insert path file :=
  files_addRecords policy _ _

/-- **Every parsed file is kept**, unless a module of one is rejected. -/
theorem files_addFiles {v : Vocabulary} {policy : NamePolicy} {a : Analysis}
    {added : List (String × ParsedFile)} (h : (a.addFiles v policy added).rejected? = none) :
    (a.addFiles v policy added).analysis.files = a.files.insertAll added := by
  induction added generalizing a with
  | nil => rfl
  | cons x rest ih =>
    obtain ⟨path, file⟩ := x
    rw [addFiles] at h ⊢
    rcases hrejected : (a.addFile v policy path file).rejected? with - | e
    · simp only [hrejected] at h ⊢
      rw [ih h, files_addFile]
      rfl
    · simp only [hrejected] at h
      cases h

/-! ## Known paths -/

/-- **A path with a tree.** -/
def HasTree (a : Analysis) (path : String) : Prop :=
  ∃ file t, a.files.get? path = some file ∧ file.tree? = some t

theorem mem_failedFiles_iff {a : Analysis} {path : String} :
    path ∈ a.failedFiles ↔ ∃ file, a.files.get? path = some file ∧ file.tree? = none := by
  simp only [failedFiles, List.mem_map, List.mem_filter, Option.isNone_iff_eq_none,
    OrderedMap.get?_eq_some_iff]
  constructor
  · rintro ⟨⟨path, file⟩, ⟨hmem, hnone⟩, rfl⟩
    exact ⟨file, hmem, hnone⟩
  · rintro ⟨file, hmem, hnone⟩
    exact ⟨(path, file), ⟨hmem, hnone⟩, rfl⟩

/-- **A known path has a tree or is a failed one**, and never both. -/
theorem mem_keys_iff_xor {a : Analysis} {path : String} :
    path ∈ a.files.keys ↔ Xor (a.HasTree path) (path ∈ a.failedFiles) := by
  rw [← OrderedMap.exists_get?_iff, mem_failedFiles_iff, HasTree]
  rcases hfile : a.files.get? path with - | file
  · simp [Xor]
  · rcases htree : file.tree? with - | t <;> simp [Xor, htree]

end Analysis

/-! ## What a front-end names -/

/-- **The paths that a front-end gives results for** when it is asked for
some: those very ones, or else the names that the checker printed. -/
inductive Frontend.Names (paths : List String) : Frontend → List String → Prop
  | checker {c : Checker} {run : ToolRun} {entries : List (CodePoints × Json)}
      (printed : run.Prints entries) :
      Names paths (.checker c run) (entries.map fun x => x.1.shown)
  | concrete {parser? : Option ConcreteParser} {nulls : NullPolicy} :
      Names paths (.concrete parser? nulls) paths

theorem ConcreteParser.keys_readFiles {parser : ConcreteParser} {nulls : NullPolicy} {disk : Disk}
    {files result : ParsedFiles} {paths seen : List String} (hseen : files.keys = seen.eraseDups)
    (h : (parser.readFiles nulls disk files paths).value = .ok result) :
    result.keys = (seen ++ paths).eraseDups := by
  induction paths generalizing files seen with
  | nil =>
    obtain rfl := Except.ok.inj h
    rw [List.append_nil, hseen]
  | cons path paths ih =>
    rw [readFiles] at h
    rcases hfile : (parser.readFile nulls disk path).value with e | parsed
    · simp only [hfile] at h
      cases h
    · simp only [hfile] at h
      have hkeys := ih (OrderedMap.keys_insert hseen path parsed) h
      rwa [List.append_assoc] at hkeys

theorem Checker.keys_parse {c : Checker} {disk : Disk} {run : ToolRun} {paths : List String}
    {input? : Option String} {result : ParsedFiles}
    (h : (c.parse disk run paths input?).value = .ok result) :
    ∃ entries, run.Prints entries ∧ result.keys = (entries.map fun x => x.1.shown).eraseDups := by
  rcases c.printed_cases run with ⟨entries, hprints⟩ | ⟨digits, hlong⟩ | ⟨e, he, -⟩
  · refine ⟨entries, hprints, ?_⟩
    rw [value_parse_of_prints hprints, map_eq_ok_iff] at h
    obtain ⟨pairs, hpairs, rfl⟩ := h
    have hnames : (entries.map fun x => x.1.shown) = pairs.map Prod.fst :=
      map_eq_of_forall₂ (readEntries_eq_ok_iff.1 hpairs).2 fun _ _ hresult => hresult.1.symm
    rw [OrderedMap.keys_ofList, hnames]
  · rw [value_parse, printed_of_printsLongNumber hlong] at h
    cases h
  · rw [value_parse, he] at h
    cases h

/-- **A front-end that returns has results for the paths that it names**, in
order. -/
theorem Frontend.keys_parseFiles {f : Frontend} {disk : Disk} {paths : List String}
    {result : ParsedFiles} (h : (f.parseFiles disk paths).value = .ok result) :
    ∃ names, f.Names paths names ∧ result.keys = names.eraseDups := by
  cases f with
  | checker c run =>
    obtain ⟨entries, hprints, hkeys⟩ := Checker.keys_parse h
    exact ⟨_, .checker hprints, hkeys⟩
  | concrete parser? nulls =>
    refine ⟨paths, .concrete, ?_⟩
    cases parser? with
    | none => cases h
    | some parser =>
      have hempty : (OrderedMap.empty : ParsedFiles).keys = ([] : List String).eraseDups := rfl
      exact ConcreteParser.keys_readFiles hempty h

namespace Analysis

theorem value_load (f : Frontend) (policy : NamePolicy) (disk : Disk) (a : Analysis)
    (paths : List String) :
    (a.load f policy disk paths).value =
      (f.parseFiles disk paths).value.map fun files =>
        a.addFiles f.vocabulary policy files.entries := rfl

theorem keys_load {f : Frontend} {policy : NamePolicy} {disk : Disk} {paths : List String}
    {added : Added} (h : (Analysis.empty.load f policy disk paths).value = .ok added)
    (hnormal : added.rejected? = none) :
    ∃ names, f.Names paths names ∧ added.analysis.files.keys = names.eraseDups := by
  rw [value_load, map_eq_ok_iff] at h
  obtain ⟨result, hresult, rfl⟩ := h
  obtain ⟨names, hnames, hkeys⟩ := Frontend.keys_parseFiles hresult
  refine ⟨names, hnames, ?_⟩
  -- a fresh analysis holds the results as the front-end gave them
  have hentries : (OrderedMap.ofList result.entries).entries = result.entries :=
    OrderedMap.entries_ofList result.nodup
  rw [files_addFiles hnormal, ← hkeys]
  exact congrArg (List.map Prod.fst) hentries

/-- **A file that was asked for is lost exactly where the checker printed no
entry for it.** After files were loaded and no module was rejected, the known
paths are those that the front-end names, in order, and each of them has a
tree or is a failed one. The concrete front-end names what it was asked for,
so it loses nothing; the checker loses what its program did not name. -/
theorem lost_iff_unnamed (f : Frontend) (policy : NamePolicy) (disk : Disk) (paths : List String)
    {added : Added} (h : (Analysis.empty.load f policy disk paths).value = .ok added)
    (hnormal : added.rejected? = none) :
    (∃ names, f.Names paths names ∧ added.analysis.files.keys = names.eraseDups) ∧
    (∀ path, path ∈ added.analysis.files.keys ↔
      Xor (added.analysis.HasTree path) (path ∈ added.analysis.failedFiles)) ∧
    ∀ path ∈ paths, path ∉ added.analysis.files.keys ↔
      ∃ c run entries, f = .checker c run ∧ run.Prints entries ∧
        ∀ x ∈ entries, x.1.shown ≠ path := by
  obtain ⟨names, hnames, hkeys⟩ := keys_load h hnormal
  refine ⟨⟨names, hnames, hkeys⟩, fun path => mem_keys_iff_xor, fun path hpath => ?_⟩
  rw [hkeys, List.mem_eraseDups]
  cases hnames with
  | @checker c run entries printed =>
    constructor
    · intro hlost
      exact ⟨c, run, entries, rfl, printed, fun x hx hshown =>
        hlost (List.mem_map.2 ⟨x, hx, hshown⟩)⟩
    · rintro ⟨c', run', entries', hf, printed', hunnamed⟩ hmem
      obtain ⟨rfl, rfl⟩ := Frontend.checker.inj hf
      obtain rfl := printed.unique printed'
      obtain ⟨x, hx, hshown⟩ := List.mem_map.1 hmem
      exact hunnamed x hx hshown
  | concrete =>
    constructor
    · intro hlost
      exact absurd hpath hlost
    · rintro ⟨c, run, entries, hf, -⟩
      cases hf

/-- A run over two files that has an entry for the first one only. -/
def firstOnly : ToolRun := .finished 1 "\x7b\"a.sv\": 7\x7d" ""

theorem prints_firstOnly : firstOnly.Prints [("a.sv", .int 7)] := by
  refine ToolRun.prints_of_readText (by simp only [String.reduceToList]; rfl) ?_
  rfl

theorem exists_load_firstOnly :
    ∃ added, (Analysis.empty.load (.checker ⟨"verible-verilog-syntax", .drop⟩ firstOnly) .replace
      Checker.twoFiles ["a.sv", "b.sv"]).value = .ok added ∧ added.rejected? = none := by
  have hnone : ∀ x ∈ [(CodePoints.ofString "a.sv", Json.int 7)], ∀ e,
      ¬ Checker.Breaks x.1 x.2 e := by
    rw [List.forall_mem_singleton]
    exact Checker.not_breaks_of_path (by decide) nofun
  obtain ⟨pairs, hvalue, -⟩ := Checker.parse_of_no_breaks ⟨"verible-verilog-syntax", .drop⟩
    Checker.twoFiles ["a.sv", "b.sv"] none prints_firstOnly hnone
  refine ⟨_, ?_, (Analysis.empty.addFiles_replace .verible (OrderedMap.ofList pairs).entries).1⟩
  rw [value_load, Frontend.parseFiles, hvalue]
  rfl

theorem second_file_lost :
    ∃ added, (Analysis.empty.load (.checker ⟨"verible-verilog-syntax", .drop⟩ firstOnly) .replace
        Checker.twoFiles ["a.sv", "b.sv"]).value = .ok added ∧ added.rejected? = none ∧
      "b.sv" ∉ added.analysis.files.keys ∧
      Xor (added.analysis.HasTree "a.sv") ("a.sv" ∈ added.analysis.failedFiles) := by
  obtain ⟨added, hvalue, hnormal⟩ := exists_load_firstOnly
  obtain ⟨-, hknown, hlost⟩ := lost_iff_unnamed _ _ _ _ hvalue hnormal
  refine ⟨added, hvalue, hnormal, (hlost "b.sv" (by decide)).2 ?_, (hknown "a.sv").1 ?_⟩
  · refine ⟨_, firstOnly, _, rfl, prints_firstOnly, ?_⟩
    rw [List.forall_mem_singleton, CodePoints.shown_ofString]
    decide
  · by_contra hmem
    obtain ⟨c, run, entries, hf, hprints, hunnamed⟩ := (hlost "a.sv" (by decide)).1 hmem
    obtain ⟨-, rfl⟩ := Frontend.checker.inj hf
    obtain rfl := prints_firstOnly.unique hprints
    exact hunnamed _ List.mem_cons_self (CodePoints.shown_ofString "a.sv")

/-- A run that has no entries. -/
def emptyReport : ToolRun := .finished 0 "\x7b\x7d" ""

theorem prints_emptyReport : emptyReport.Prints [] := by
  refine ToolRun.prints_of_readText (by simp only [String.reduceToList]; rfl) ?_
  rfl

/-- **A file that the checker is silent about is lost silently**: loading it
ends normally, and the analysis knows nothing of it. -/
theorem unnamed_file_lost :
    ∃ added, (Analysis.empty.load (.checker ⟨"verible-verilog-syntax", .drop⟩ emptyReport) .reject
        Checker.twoFiles ["a.sv"]).value = .ok added ∧ added.rejected? = none ∧
      "a.sv" ∉ added.analysis.files.keys ∧ ¬ added.analysis.HasTree "a.sv" ∧
      added.analysis.failedFiles = [] := by
  have hvalue : (Analysis.empty.load (.checker ⟨"verible-verilog-syntax", .drop⟩ emptyReport)
      .reject Checker.twoFiles ["a.sv"]).value = .ok ⟨.empty, none, []⟩ := by
    rw [value_load, Frontend.parseFiles, Checker.value_parse_of_prints prints_emptyReport]
    rfl
  refine ⟨_, hvalue, rfl, List.not_mem_nil, ?_, rfl⟩
  rintro ⟨file, t, hfile, -⟩
  cases hfile

end Analysis

end DesignAtlas
