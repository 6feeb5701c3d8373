import DesignAtlas.Design.Cycles
import DesignAtlas.Design.Walk
import DesignAtlas.Frontend.Basic
import DesignAtlas.Module.ByFile
import DesignAtlas.Module.Extraction

/-!
# Analyses

An analysis collects parsed files: the files under their paths, the records of all
modules in the order in which they were found, and the design that the records make
up. Files without a tree give no modules but are remembered as failed.

When the design rejects a record, adding stops there. What was added before stays,
and so do the file and the rejected record itself among the records.
-/

namespace DesignAtlas

/-- The records of the modules of parsed files, in order, and what is noted. -/
def Vocabulary.extractAll (v : Vocabulary) (files : ParsedFiles) : List ModuleRecord × List Event :=
  let found := files.entries.map fun (path, file) => v.extract path file.tree?
  (found.flatMap Prod.fst, found.flatMap Prod.snd)

/-- The state of an analysis. -/
structure Analysis where
  files : ParsedFiles
  records : List ModuleRecord
  design : Design
  deriving Inhabited

/-- An analysis after something was added to it, with the rejection that ended it, if
one did, and what was noted. -/
structure Added where
  analysis : Analysis
  rejected? : Option Duplicate
  events : List Event

namespace Analysis

/-- An analysis without files. -/
def empty : Analysis := ⟨.empty, [], .empty⟩

/-- Adds records in order, until one is rejected. -/
def addRecords (policy : NamePolicy) : Analysis → List ModuleRecord → Added
  | a, [] => ⟨a, none, []⟩
  | a, r :: rs =>
    let a := { a with records := a.records ++ [r] }
    match a.design.add policy r with
    | .error e => ⟨a, some e, []⟩
    | .ok (design, noted) =>
      let rest := addRecords policy { a with design } rs
      { rest with events := noted ++ rest.events }

/-- Adds a parsed file with its modules. -/
def addFile (v : Vocabulary) (policy : NamePolicy) (a : Analysis) (path : String)
    (file : ParsedFile) : Added :=
  let (records, noted) := v.extract path file.tree?
  let added := { a with files := a.files.insert path file }.addRecords policy records
  { added with events := noted ++ added.events }

/-- Adds parsed files in order, until a module of one is rejected. -/
def addFiles (v : Vocabulary) (policy : NamePolicy) : Analysis → List (String × ParsedFile) → Added
  | a, [] => ⟨a, none, []⟩
  | a, (path, file) :: rest =>
    let added := a.addFile v policy path file
    match added.rejected? with
    | some _ => added
    | none =>
      let more := addFiles v policy added.analysis rest
      { more with events := added.events ++ more.events }

/-- **Parses files and adds them.** A failure of the front-end leaves nothing to add. The
events are those of parsing; what adding notes is found in its result. -/
def load (f : Frontend) (policy : NamePolicy) (disk : Disk) (a : Analysis) (paths : List String) :
    Logged (Except Failure Added) :=
  let parsed := f.parseFiles disk paths
  ⟨parsed.value.map fun files => a.addFiles f.vocabulary policy files.entries, parsed.events⟩

/-- The files without a tree. -/
def failedFiles (a : Analysis) : List String :=
  (a.files.entries.filter fun (_, file) => file.tree?.isNone).map Prod.fst

/-- The records by file. -/
def recordsByFile (a : Analysis) : OrderedMap String (List ModuleRecord) :=
  ModuleRecord.byFile a.records

end Analysis

end DesignAtlas
