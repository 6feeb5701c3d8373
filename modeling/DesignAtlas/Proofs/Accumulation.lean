import DesignAtlas.Design.Analysis
import DesignAtlas.Proofs.OrderedMap

/-!
# Files added call by call

An analysis takes parsed files in any number of calls. `Analysis.runCalls`
makes the calls in order, and a rejection ends its call only: the next one
goes on with what was left.

Where later modules replace earlier ones, calls add up to one batch run over
all files in order (`runCalls_replace`), however the files are divided
between them. What the batch run leaves is said without the calls
(`Analysis.IsBatchOf`).
-/

namespace DesignAtlas

/-- The records of some parsed files, file by file. -/
def Vocabulary.recordsOf (v : Vocabulary) (added : List (String × ParsedFile)) :
    List ModuleRecord :=
  added.flatMap fun x => (v.extract x.1 x.2.tree?).1

theorem Vocabulary.recordsOf_append (v : Vocabulary) (added later : List (String × ParsedFile)) :
    v.recordsOf (added ++ later) = v.recordsOf added ++ v.recordsOf later :=
  List.flatMap_append

theorem Vocabulary.recordsOf_singleton (v : Vocabulary) (path : String) (file : ParsedFile) :
    v.recordsOf [(path, file)] = (v.extract path file.tree?).1 :=
  List.append_nil _

theorem Vocabulary.fst_extractAll (v : Vocabulary) (files : ParsedFiles) :
    (v.extractAll files).1 = v.recordsOf files.entries := by
  rw [extractAll, List.flatMap_map]
  rfl

namespace Design

/-- Puts records into a design, one after the other. -/
def putAll (d : Design) (rs : List ModuleRecord) : Design := rs.foldl (fun d r => (d.put r).1) d

theorem putAll_append (d : Design) (rs later : List ModuleRecord) :
    d.putAll (rs ++ later) = (d.putAll rs).putAll later :=
  List.foldl_append

theorem fst_ofRecords (rs : List ModuleRecord) : (ofRecords rs).1 = putAll .empty rs :=
  (List.foldl_hom Prod.fst fun _ _ => rfl).symm

end Design

namespace Analysis

/-- **The analysis after some calls**, each with a map of parsed files, and
the rejections that ended calls, in order. -/
def runCalls (v : Vocabulary) (policy : NamePolicy) :
    Analysis → List ParsedFiles → Analysis × List Duplicate
  | a, [] => (a, [])
  | a, files :: rest =>
    let added := a.addFiles v policy files.entries
    let (last, rejections) := runCalls v policy added.analysis rest
    (last, added.rejected?.toList ++ rejections)

theorem runCalls_append (v : Vocabulary) (policy : NamePolicy) (a : Analysis)
    (calls later : List ParsedFiles) :
    a.runCalls v policy (calls ++ later) =
      (((a.runCalls v policy calls).1.runCalls v policy later).1,
        (a.runCalls v policy calls).2 ++
          ((a.runCalls v policy calls).1.runCalls v policy later).2) := by
  induction calls generalizing a with
  | nil => rfl
  | cons files calls ih =>
    rw [List.cons_append, runCalls, ih]
    simp only [runCalls, List.append_assoc]

/-! ## Calls that replace -/

/-- **One batch run**: an analysis with some parsed files added all at
once. -/
def withFiles (v : Vocabulary) (a : Analysis) (added : List (String × ParsedFile)) : Analysis where
  files := a.files.insertAll added
  records := a.records ++ v.recordsOf added
  design := a.design.putAll (v.recordsOf added)

theorem withFiles_nil (v : Vocabulary) (a : Analysis) : a.withFiles v [] = a := by
  rw [withFiles, Vocabulary.recordsOf, List.flatMap_nil, List.append_nil]
  rfl

theorem withFiles_append (v : Vocabulary) (a : Analysis)
    (added later : List (String × ParsedFile)) :
    a.withFiles v (added ++ later) = (a.withFiles v added).withFiles v later := by
  simp only [withFiles, OrderedMap.insertAll_append, v.recordsOf_append, Design.putAll_append,
    List.append_assoc]

theorem addRecords_replace (a : Analysis) (rs : List ModuleRecord) :
    (a.addRecords .replace rs).rejected? = none ∧
      (a.addRecords .replace rs).analysis =
        { a with records := a.records ++ rs, design := a.design.putAll rs } := by
  induction rs generalizing a with
  | nil => exact ⟨rfl, by rw [List.append_nil]; rfl⟩
  | cons r rs ih =>
    obtain ⟨hrejected, hanalysis⟩ :=
      ih { a with records := a.records ++ [r], design := (a.design.put r).1 }
    refine ⟨hrejected, hanalysis.trans ?_⟩
    rw [List.append_assoc]
    rfl

theorem addFile_replace (v : Vocabulary) (a : Analysis) (path : String) (file : ParsedFile) :
    (a.addFile v .replace path file).rejected? = none ∧
      (a.addFile v .replace path file).analysis = a.withFiles v [(path, file)] := by
  obtain ⟨hrejected, hanalysis⟩ := addRecords_replace
    { a with files := a.files.insert path file } (v.extract path file.tree?).1
  refine ⟨hrejected, hanalysis.trans ?_⟩
  rw [withFiles, v.recordsOf_singleton]
  rfl

/-- **A call adds its files as a batch run does**, and is not rejected. -/
theorem addFiles_replace (v : Vocabulary) (a : Analysis) (added : List (String × ParsedFile)) :
    (a.addFiles v .replace added).rejected? = none ∧
      (a.addFiles v .replace added).analysis = a.withFiles v added := by
  induction added generalizing a with
  | nil => exact ⟨rfl, (withFiles_nil v a).symm⟩
  | cons x added ih =>
    obtain ⟨path, file⟩ := x
    obtain ⟨hrejected, hanalysis⟩ := a.addFile_replace v path file
    obtain ⟨hrest, hlast⟩ := ih (a.withFiles v [(path, file)])
    rw [addFiles]
    simp only [hrejected, hanalysis]
    exact ⟨hrest, hlast.trans (withFiles_append v a [(path, file)] added).symm⟩

/-- **So do calls, one after the other.** -/
theorem runCalls_replace (v : Vocabulary) (a : Analysis) (calls : List ParsedFiles) :
    a.runCalls v .replace calls = (a.withFiles v (calls.flatMap OrderedMap.entries), []) := by
  induction calls generalizing a with
  | nil => rw [runCalls, List.flatMap_nil, withFiles_nil]
  | cons files calls ih =>
    obtain ⟨hrejected, hanalysis⟩ := a.addFiles_replace v files.entries
    rw [runCalls]
    simp only [hrejected, hanalysis, ih, Option.toList_none, List.nil_append]
    rw [List.flatMap_cons, withFiles_append]

/-- The files without a tree, by look-ups. -/
theorem failedFiles_eq (a : Analysis) :
    a.failedFiles =
      a.files.keys.filter fun path => (a.files.get? path).any fun file => file.tree?.isNone :=
  a.files.keys_filter_entries fun file => file.tree?.isNone

/-- **The state of a batch run** over the files of some calls. The records
are those of each call's files in order, and the design is that of the
records. The files stand in the order in which their paths first came, each
as it came last, and the failed ones are those that came last without a
tree. -/
structure IsBatchOf (v : Vocabulary) (calls : List ParsedFiles) (a : Analysis) : Prop where
  records : a.records = calls.flatMap fun files => (v.extractAll files).1
  design : a.design = (Design.ofRecords a.records).1
  paths : a.files.keys = ((calls.flatMap OrderedMap.entries).map Prod.fst).eraseDups
  last : ∀ path, a.files.get? path = (calls.flatMap OrderedMap.entries).reverse.lookup path
  failed : a.failedFiles = ((calls.flatMap OrderedMap.entries).map Prod.fst).eraseDups.filter
    fun path => ((calls.flatMap OrderedMap.entries).reverse.lookup path).any
      fun file => file.tree?.isNone

theorem isBatchOf_withFiles (v : Vocabulary) (calls : List ParsedFiles) :
    IsBatchOf v calls (Analysis.empty.withFiles v (calls.flatMap OrderedMap.entries)) := by
  have hfiles : (Analysis.empty.withFiles v (calls.flatMap OrderedMap.entries)).files =
      .ofList (calls.flatMap OrderedMap.entries) := rfl
  refine ⟨?_, (Design.fst_ofRecords _).symm, ?_, ?_, ?_⟩
  · simp only [v.fst_extractAll, Vocabulary.recordsOf, ← List.flatMap_assoc]
    rfl
  · rw [hfiles, OrderedMap.keys_ofList]
  · intro path
    rw [hfiles, OrderedMap.get?_ofList]
  · rw [failedFiles_eq, hfiles, OrderedMap.keys_ofList]
    simp only [OrderedMap.get?_ofList]

/-- **Calls that replace add up to one batch run.** None of them is
rejected, and after them the analysis is in the state of the batch run. So
files that are divided between calls, in order, give what one call with all
of them gives, whatever was there before. -/
theorem calls_accumulate_as_batch (v : Vocabulary) (calls : List ParsedFiles) :
    (Analysis.empty.runCalls v .replace calls).2 = [] ∧
    IsBatchOf v calls (Analysis.empty.runCalls v .replace calls).1 ∧
    ∀ (a : Analysis) (files : ParsedFiles), calls.flatMap OrderedMap.entries = files.entries →
      (a.runCalls v .replace calls).1 = (a.runCalls v .replace [files]).1 ∧
      (a.runCalls v .replace calls).1.design.tops = (a.runCalls v .replace [files]).1.design.tops ∧
      (∀ tops? showUndeclared,
        (a.runCalls v .replace calls).1.design.hierarchy tops? showUndeclared =
          (a.runCalls v .replace [files]).1.design.hierarchy tops? showUndeclared) ∧
      (a.runCalls v .replace calls).1.design.cycles =
        (a.runCalls v .replace [files]).1.design.cycles := by
  rw [runCalls_replace]
  refine ⟨rfl, isBatchOf_withFiles v calls, fun a files hfiles => ?_⟩
  have hsame : (a.runCalls v .replace calls).1 = (a.runCalls v .replace [files]).1 := by
    rw [runCalls_replace, runCalls_replace, hfiles, List.flatMap_singleton]
  rw [hsame]
  exact ⟨rfl, rfl, fun _ _ => rfl, rfl⟩

end Analysis

/-- A file whose one module has nothing but a name. -/
def ParsedFile.declaring (name : String) : ParsedFile where
  source := .absent
  tree? := some ⟨"root", [.branch "kModuleDeclaration" [.branch "kModuleHeader" [
    .token ⟨"SymbolIdentifier", 7, 7 + name.utf8ByteSize, some name, by omega⟩]]], .absent⟩
  errors := []

namespace Analysis

/-- Two files that declare one module, and one without a tree. -/
def repeatedModule : ParsedFiles :=
  .ofList [("a.sv", .declaring "m"), ("b.sv", .declaring "m"), ("c.sv", .ofSource .absent)]

theorem repeated_module_in_two_calls :
    [OrderedMap.ofList [("a.sv", .declaring "m")],
        .ofList [("b.sv", .declaring "m"), ("c.sv", .ofSource .absent)]].flatMap
      OrderedMap.entries = repeatedModule.entries ∧
    (Analysis.empty.runCalls .verible .replace [.ofList [("a.sv", .declaring "m")],
        .ofList [("b.sv", .declaring "m"), ("c.sv", .ofSource .absent)]]).1 =
      (Analysis.empty.runCalls .verible .replace [repeatedModule]).1 :=
  ⟨rfl, ((calls_accumulate_as_batch .verible _).2.2 .empty repeatedModule rfl).1⟩

end Analysis

end DesignAtlas
