import DesignAtlas.Frontend.Parsed
import DesignAtlas.Json.Literal
import DesignAtlas.Text.Blank

/-!
# The syntax checker

A program that checks source files and prints one JSON object with an entry for each
of them, `-` being its standard input. An entry holds the exported `tree` and the
`errors` of the file. The program ends with a status other than zero when a file has
errors but still reports the others, so only a run that printed nothing is a failure.

The result of a file depends on its own entry and its own source.
-/

namespace DesignAtlas

/-- What running the program gave. -/
inductive ToolRun where
  /-- The program was not found. -/
  | missing
  | finished (status : Int) (output errorText : String)
  deriving DecidableEq, Repr, Inhabited

/-- A run of a program: its command line, and its standard input if it has one. -/
structure ToolCall where
  command : List String
  input? : Option String
  deriving DecidableEq, Repr

/-- The syntax checker. -/
structure Checker where
  executable : String
  nulls : NullPolicy
  deriving DecidableEq, Repr, Inhabited

namespace Checker

/-- The program that is run when none is given: that of the environment, if it names
one. -/
def defaultExecutable (environment? : Option String) : String :=
  match environment? with
  | some path => if path.isEmpty then "verible-verilog-syntax" else path
  | none => "verible-verilog-syntax"

/-- The checker for a program that may be given. An empty name counts as none. -/
def ofExecutable (environment? given? : Option String) (nulls : NullPolicy) : Checker :=
  match given? with
  | some path => ⟨if path.isEmpty then defaultExecutable environment? else path, nulls⟩
  | none => ⟨defaultExecutable environment?, nulls⟩

/-- The run that checks files, or a text given as standard input. -/
def call (c : Checker) (paths : List String) (input? : Option String) : ToolCall :=
  ⟨c.executable :: "-export_json" :: "-printtree" :: paths, input?⟩

/-- What the program printed. -/
def output (c : Checker) : ToolRun → Except Failure String
  | .missing => .error (.toolMissing c.executable)
  | .finished status output errorText =>
    if (Text.strip output).isEmpty then
      let reason := Text.strip errorText
      .error (.noOutput c.executable status (if reason.isEmpty then "no output" else reason))
    else .ok output

/-- The entries of what the program printed. -/
def entries (c : Checker) (output : String) : Except Failure (List (CodePoints × Json)) :=
  match Json.read output with
  | .ok (.obj entries) => .ok entries
  | .ok _ => .error (.unexpectedJson c.executable)
  | .error (.malformed fault place) => .error (.invalidJson c.executable fault place)
  | .error .tooDeep => .error (.nestedTooDeeply c.executable)
  | .error (.integerTooLong digits) => .error (.integerTooLong digits)

/-- The wording of a reported error: its line and column, its phase, and the text it is
at. A report that is no object stands for itself. -/
def errorText (report : Json) : String :=
  match report with
  | .obj _ =>
    let line := report.field "line"
    let place := if line.isNull then "?" else line.display ++ ":" ++ (report.field "column").display
    let phase := (report.field? "phase").getD (.str "")
    let text := (report.field? "text").getD (.str "")
    Text.strip (place ++ ": " ++ phase.display ++ " error at " ++ text.literal)
  | _ => report.display

/-- The reported errors of a file. A text lists its characters and an object its names;
anything else but a list cannot be gone through. -/
def reports : Json → Except Failure (List String)
  | .arr items => .ok (items.map errorText)
  | .str s => .ok (s.chars.map String.singleton)
  | .obj fields => .ok (fields.map fun (name, _) => name.shown)
  | j => .error (.errorsNotListed j.kindName)

/-- The source of an entry: the standard input for `-`, else the file. A path that has no
bytes fails. -/
def entrySource (disk : Disk) (input? : Option String) (path : CodePoints) :
    Logged (Except Failure Source) :=
  match path.unencodable? with
  | some run => ⟨.error (.unencodablePath run), []⟩
  | none =>
    if path.shown = "-" then ⟨.ok ((input?.map Source.text).getD .absent), []⟩
    else disk.readSource path.shown

/-- The result of a file from its source and its entry. -/
def parsedFile (nulls : NullPolicy) (path : String) (source : Source) (entry : Json) :
    Logged (Except Failure ParsedFile) :=
  match entry with
  | .obj _ =>
    match reports ((entry.field? "errors").getD (.arr [])) with
    | .error e => ⟨.error e, []⟩
    | .ok errors =>
      let file : ParsedFile := ⟨source, none, errors⟩
      let exported := entry.field "tree"
      if exported.isNull then ⟨.ok file, []⟩
      else
        let attached := file.attach nulls path exported
        ⟨.ok attached.value, attached.events⟩
  | _ => ⟨.ok ⟨source, none, ["unexpected per-file result"]⟩, []⟩

/-- The result of a file from its entry. -/
def readEntry (c : Checker) (disk : Disk) (input? : Option String) (path : CodePoints)
    (entry : Json) : Logged (Except Failure ParsedFile) :=
  let source := entrySource disk input? path
  match source.value with
  | .error e => ⟨.error e, source.events⟩
  | .ok s =>
    let file := parsedFile c.nulls path.shown s entry
    ⟨file.value, source.events ++ file.events⟩

/-- The results of entries in order, up to the first failure. -/
def readEntries (c : Checker) (disk : Disk) (input? : Option String) :
    List (CodePoints × Json) → Logged (Except Failure (List (String × ParsedFile)))
  | [] => ⟨.ok [], []⟩
  | (path, entry) :: rest =>
    let file := c.readEntry disk input? path entry
    match file.value with
    | .error e => ⟨.error e, file.events⟩
    | .ok parsed =>
      let others := c.readEntries disk input? rest
      ⟨others.value.map ((path.shown, parsed) :: ·), file.events ++ others.events⟩

/-- **The result of a run** over files, or over a text given as standard input. -/
def parse (c : Checker) (disk : Disk) (run : ToolRun) (paths : List String)
    (input? : Option String) : Logged (Except Failure ParsedFiles) :=
  let started := Event.running (c.call paths input?).command
  match c.output run >>= c.entries with
  | .error e => ⟨.error e, [started]⟩
  | .ok entries =>
    let files := c.readEntries disk input? entries
    ⟨files.value.map OrderedMap.ofList, started :: files.events⟩

end Checker

end DesignAtlas
