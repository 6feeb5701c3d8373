import DesignAtlas.Frontend.Parsed
import DesignAtlas.Text.Blank

/-!
# Concrete syntax trees

A parser may hand over its concrete syntax tree directly. Such a tree is turned into
an exported tree and then treated like any other. A token covers its raw text from its
offset on; tokens that are missing from the source, and those of an unknown kind, are
null in the exported tree.
-/

namespace DesignAtlas

/-- A concrete syntax tree. -/
inductive Cst where
  /-- An optional part that is not there. -/
  | absent
  | token (kind raw : String) (offset : Int) (missing : Bool)
  | node (kind : String) (children : List Cst)
  deriving Inhabited

namespace Cst

mutual

/-- The exported tree. -/
def exported : Cst → Json
  | absent => .null
  | token kind raw offset missing =>
    if missing || kind == "Unknown" then .null
    else
      .obj [
        ("tag", .str kind),
        ("start", .int offset),
        ("end", .int (offset + (Utf8.encode raw).length)),
        ("text", .str raw)]
  | node kind children => .obj [("tag", .str kind), ("children", .arr (exportedAll children))]

/-- The exported trees. -/
def exportedAll : List Cst → List Json
  | [] => []
  | c :: cs => exported c :: exportedAll cs

end

end Cst

/-- A message of the parser. -/
structure Diagnostic where
  isError : Bool
  text : String
  deriving DecidableEq, Repr, Inhabited

/-- What the parser gives for a file: its tree, its messages, and how it words a report
on some of them. -/
structure Concrete where
  root : Cst
  diagnostics : List Diagnostic
  report : List Diagnostic → String
  deriving Inhabited

namespace Concrete

/-- The lines of the report on errors that are not blank. Without errors there is no
report. -/
def errorLines (c : Concrete) (errors : List Diagnostic) : List String :=
  if errors.isEmpty then []
  else (Text.lines (c.report errors)).filter fun line => !(Text.strip line).isEmpty

/-- The result of a file. -/
def parsedFile (nulls : NullPolicy) (path : String) (source : Source) (c : Concrete) :
    Logged ParsedFile :=
  let errors := c.diagnostics.filter Diagnostic.isError
  let noted := if errors.isEmpty then [] else [Event.syntaxErrors path errors.length]
  let file : ParsedFile := ⟨source, none, c.errorLines errors⟩
  let exported := c.root.exported
  if exported.isNull then ⟨file, noted⟩
  else
    let root := .obj [("tag", .str "SyntaxTree"), ("children", .arr [exported])]
    let attached := file.attach nulls path root
    ⟨attached.value, noted ++ attached.events⟩

end Concrete

/-- A parser that hands over concrete trees: what it gives for a path or name. -/
structure ConcreteParser where
  parsed : String → Concrete

namespace ConcreteParser

/-- The result of a file on disk. -/
def readFile (parser : ConcreteParser) (nulls : NullPolicy) (disk : Disk) (path : String) :
    Logged (Except Failure ParsedFile) :=
  let source := disk.readSource path
  match source.value with
  | .error e => ⟨.error e, source.events⟩
  | .ok s =>
    let file := (parser.parsed path).parsedFile nulls path s
    ⟨.ok file.value, source.events ++ file.events⟩

/-- The results of files in order, added to earlier ones, up to the first failure. -/
def readFiles (parser : ConcreteParser) (nulls : NullPolicy) (disk : Disk) :
    ParsedFiles → List String → Logged (Except Failure ParsedFiles)
  | files, [] => ⟨.ok files, []⟩
  | files, path :: paths =>
    let file := parser.readFile nulls disk path
    match file.value with
    | .error e => ⟨.error e, file.events⟩
    | .ok parsed =>
      let others := parser.readFiles nulls disk (files.insert path parsed) paths
      ⟨others.value, file.events ++ others.events⟩

/-- **The result of files**, if the parser is there. -/
def parseFiles (parser? : Option ConcreteParser) (nulls : NullPolicy) (disk : Disk)
    (paths : List String) : Logged (Except Failure ParsedFiles) :=
  match parser? with
  | none => ⟨.error .parserMissing, []⟩
  | some parser => parser.readFiles nulls disk .empty paths

/-- **The result of a text** under a name, if the parser is there. -/
def parseText (parser? : Option ConcreteParser) (nulls : NullPolicy) (name text : String) :
    Logged (Except Failure ParsedFiles) :=
  match parser? with
  | none => ⟨.error .parserMissing, []⟩
  | some parser =>
    let file := (parser.parsed name).parsedFile nulls name (.text text)
    ⟨.ok (OrderedMap.empty.insert name file.value), file.events⟩

end ConcreteParser

end DesignAtlas
