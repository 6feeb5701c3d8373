import DesignAtlas.Event
import DesignAtlas.Json.Reader

/-!
# Parsed files

What a front-end gives for a source file: the source, the syntax tree if there is one,
and the errors that were reported. A malformed tree fails its own file only. What
keeps a front-end from giving any result is a `Failure`.

Front-ends note events on the way, and events noted before a failure are kept:
`Logged` is a value with the events noted for it.
-/

namespace DesignAtlas

/-- A value with the events noted on the way to it. -/
structure Logged (α : Type) where
  value : α
  events : List Event

/-- Why a front-end gives no result. -/
inductive Failure where
  /-- The program was not found. -/
  | toolMissing (tool : String)
  /-- The program printed nothing. -/
  | noOutput (tool : String) (status : Int) (errorText : String)
  /-- The program printed something that is not JSON. -/
  | invalidJson (tool : String) (fault : Json.Fault) (place : Json.Place)
  /-- The program printed JSON that is nested too deeply. -/
  | nestedTooDeeply (tool : String)
  /-- The program printed a number that is too long. -/
  | integerTooLong (digits : Nat)
  /-- The program printed JSON that is no object. -/
  | unexpectedJson (tool : String)
  /-- The errors of a file are no collection. -/
  | errorsNotListed (kind : String)
  /-- A path holds a NUL. -/
  | nulInPath
  /-- A path holds halves of surrogate pairs. -/
  | unencodablePath (run : CodePoints.Unencodable)
  /-- The parser is not installed. -/
  | parserMissing
  deriving DecidableEq, Repr

/-- The wording of a failure. -/
def Failure.message : Failure → String
  | toolMissing tool => s!"{tool} not found"
  | noOutput tool status errorText => s!"{tool} exited with status {status}: {errorText}"
  | invalidJson tool fault place =>
    s!"{tool} produced invalid JSON: {(Json.ReadError.malformed fault place).message}"
  | nestedTooDeeply tool => s!"{tool} produced JSON nested too deeply to decode"
  | integerTooLong digits => (Json.ReadError.integerTooLong digits).message
  | unexpectedJson tool => s!"{tool} produced unexpected JSON output"
  | errorsNotListed kind => s!"'{kind}' object is not iterable"
  | nulInPath => Disk.Error.nulInPath.wording
  | unencodablePath run => run.message
  | parserMissing =>
    "pyslang is required for the slang front-end but is not installed. " ++
      "Install it via `pip install pyslang`."

/-- What a front-end gives for a source file. -/
structure ParsedFile where
  source : Source
  tree? : Option Tree
  errors : List String
  deriving Inhabited

namespace ParsedFile

/-- A file with nothing but its source. -/
def ofSource (source : Source) : ParsedFile := ⟨source, none, []⟩

/-- Adds an exported tree. If it is malformed, the file has no tree and one error more. -/
def attach (nulls : NullPolicy) (path : String) (file : ParsedFile) (exported : Json) :
    Logged ParsedFile :=
  match Tree.ofExport nulls file.source exported with
  | .ok t => ⟨{ file with tree? := some t }, []⟩
  | .error m =>
    ⟨{ file with tree? := none, errors := file.errors ++ [m.message] }, [.unusableTree path m]⟩

end ParsedFile

/-- Reads a source file. A file that cannot be read has no known contents, which is
noted; a path with a NUL fails. -/
def Disk.readSource (d : Disk) (path : String) : Logged (Except Failure Source) :=
  match d.read path with
  | .ok bytes => ⟨.ok (.stored bytes), []⟩
  | .error .nulInPath => ⟨.error .nulInPath, []⟩
  | .error e => ⟨.ok .absent, [.unreadable path e]⟩

/-- Reads source files in order, up to the first failure. -/
def Disk.readSources (d : Disk) : List String → Logged (Except Failure (List Source))
  | [] => ⟨.ok [], []⟩
  | path :: paths =>
    let first := d.readSource path
    match first.value with
    | .error e => ⟨.error e, first.events⟩
    | .ok source =>
      let others := d.readSources paths
      ⟨others.value.map (source :: ·), first.events ++ others.events⟩

/-- The files of a front-end's result under their paths. -/
abbrev ParsedFiles := OrderedMap String ParsedFile

end DesignAtlas
