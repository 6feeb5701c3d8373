import DesignAtlas.CommandLine.Arguments
import DesignAtlas.Design.Analysis
import DesignAtlas.Report.Renderer

/-!
# Running a command line

What a command line does in given surroundings: what it prints, how it ends and which
programs it runs. Events from a warning on are printed as error output, and with the
verbose option all of them are.
-/

namespace DesignAtlas.CommandLine

/-- The surroundings of a run. -/
structure Surroundings where
  disk : Disk
  /-- The syntax checker that the environment names. -/
  environment? : Option String
  /-- What running the syntax checker gives. -/
  checkerRun : ToolRun
  /-- The parser that hands over concrete trees, if it is there. -/
  parser? : Option ConcreteParser
  /-- The output goes to a terminal. -/
  terminal : Bool

/-- How a run ends: with a status, or with a last message. -/
inductive Exit where
  | status (n : Nat)
  | complaint (message : String)
  deriving DecidableEq, Repr

/-- What a run comes to. -/
structure Result where
  exit : Exit
  output : String
  errorOutput : String
  calls : List ToolCall
  deriving DecidableEq, Repr

/-- Why a run breaks off without a result. -/
inductive Abort where
  | failure (e : Failure)
  /-- A setting without a value was looked up. -/
  | noValue
  deriving DecidableEq, Repr

/-- The wording of an abort. -/
def Abort.message : Abort → String
  | .failure e => e.message
  | .noValue => "unhashable type: 'list'"

/-- Whether a failure ends a run with a message. The others break it off. -/
def isReported : Failure → Bool
  | .integerTooLong _ => false
  | .errorsNotListed _ => false
  | .nulInPath => false
  | .unencodablePath _ => false
  | _ => true

/-- The lines of the events that are shown. -/
def eventLines (verbose : Bool) (events : List Event) : String :=
  unlines ((events.filter fun e => verbose || e.severity == .warning).map Event.message)

/-- The renderer for a format. -/
def rendererFor (format : String) (color : Bool) : Renderer :=
  match format with
  | "markdown" => .markdown
  | "csv" => .csv ";"
  | "json" => .json (some 2)
  | _ => .terminal { color }

/-- The front-end of a name. -/
def frontendFor (w : Surroundings) (frontend : String) (executable? : Option String) : Frontend :=
  if frontend == "slang" then .concrete w.parser? .drop
  else .checker (.ofExecutable w.environment? executable? .drop) w.checkerRun

/-- What a command makes of an analysis. -/
structure Presented where
  exit : Exit
  output : String
  /-- What is noted before the warnings. -/
  noted : List Event
  warnings : List String

/-- Presents the hierarchy below the given top modules, which must be known. -/
def presentHierarchy (r : Renderer) (d : Design) (tops : List String) (showUndeclared : Bool) :
    Presented :=
  let missing := tops.filter fun name => !d.contains name
  if missing.isEmpty then
    let (entries, noted) := d.hierarchy (some tops) showUndeclared
    let warnings := d.cycles.map fun group =>
      "Warning: recursive instantiation: " ++ String.intercalate " -> " group
    ⟨.status 0, r.hierarchy entries ++ "\n", noted, warnings⟩
  else
    ⟨.complaint ("Error: Unknown top module(s): " ++ String.intercalate ", " missing), "", [], []⟩

/-- Presents what a command asks for of an analysis. -/
def present (r : Renderer) (c : Command) (own : CommandSettings) (a : Analysis) :
    Except Abort Presented :=
  match c with
  | .modules => .ok ⟨.status 0, r.modules a.records ++ "\n", [], []⟩
  | .top => .ok ⟨.status 0, r.tops a.design.tops ++ "\n", [], []⟩
  | .hierarchy =>
    if own.tops.isEmpty then .ok (presentHierarchy r a.design a.design.tops own.showUndeclared)
    else
      match own.tops.mapM id with
      | none => .error .noValue
      | some tops => .ok (presentHierarchy r a.design tops own.showUndeclared)

/-- Runs a command over what was loaded. -/
def runLoaded (w : Surroundings) (s : Settings) (c : Command) (own : CommandSettings)
    (calls : List ToolCall) (earlier : List Event) (added : Added) : Except Abort Result := do
  let shown := eventLines s.verbose
  let loading := shown (earlier ++ added.events)
  match added.rejected?, s.format? with
  | some e, _ => return ⟨.complaint ("Error: " ++ e.message), "", loading, calls⟩
  | none, none => throw .noValue
  | none, some format =>
    let failed := added.analysis.failedFiles.map fun path =>
      s!"Warning: no syntax tree for {path}, skipped"
    let p ← present (rendererFor format (!s.noColor && w.terminal)) c own added.analysis
    return ⟨p.exit, p.output, loading ++ unlines failed ++ shown p.noted ++ unlines p.warnings,
      calls⟩

/-- Runs a command over files. -/
def runCommand (w : Surroundings) (s : Settings) (c : Command) (own : CommandSettings)
    (files : List String) : Except Abort Result :=
  match files.find? (fun path => !w.disk.isFile path), s.frontend? with
  | some path, _ => .ok ⟨.complaint ("Error: File not found: " ++ path), "", "", []⟩
  | none, none => .error .noValue
  | none, some frontend =>
    let f := frontendFor w frontend s.executable?
    let policy := if s.strict then NamePolicy.reject else .replace
    let loaded := Analysis.empty.load f policy w.disk files
    match loaded.value with
    | .ok added => runLoaded w s c own (f.calls files) loaded.events added
    | .error e =>
      if isReported e then
        let shown := eventLines s.verbose loaded.events
        .ok ⟨.complaint ("Error: " ++ e.message), "", shown, f.calls files⟩
      else .error (.failure e)

/-- **Runs a command line.** -/
def run (w : Surroundings) (argv : List String) : Except Abort Result :=
  match ask argv with
  | .nothing => .ok ⟨.status 1, help none, "", []⟩
  | .help c? => .ok ⟨.status 0, help c?, "", []⟩
  | .refused c? error =>
    .ok ⟨.status 2, "", usage c? ++ speaker c? ++ ": error: " ++ error.message ++ "\n", []⟩
  | .run s c own files => runCommand w s c own files

/-! ## What a run needs -/

/-- Whether a command line makes the syntax checker run. -/
def usesChecker (argv : List String) : Bool :=
  match ask argv with
  | .run s _ _ _ => s.frontend? == some "verible"
  | _ => false

/-- The paths that a run may read: its files, and those that the syntax checker reports
on. -/
def pathsRead (argv : List String) (checkerOutput : String) : List String :=
  match ask argv with
  | .run _ _ _ files =>
    match Json.read checkerOutput with
    | .ok (.obj entries) => files ++ entries.map fun (path, _) => path.shown
    | _ => files
  | _ => []

end DesignAtlas.CommandLine
