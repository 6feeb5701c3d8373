import DesignAtlas.Design.Walk
import DesignAtlas.Module.ByFile
import DesignAtlas.Text.Blank

/-!
# Reports for a terminal

Plain text, coloured on request. The module report has a banner for each file and a
block for each module, in which the values of a field stand below each other; an empty
field shows a dash. The hierarchy report indents each entry by its depth.
-/

namespace DesignAtlas

/-- Whether a report is coloured, and how far a level is indented. -/
structure Terminal where
  color : Bool := true
  indent : Int := 2
  deriving DecidableEq, Repr, Inhabited

namespace Terminal

/-- The roles that parts of a report are coloured for. -/
inductive Paint where
  | key
  | dim
  | value
  | alarm
  | banner
  deriving DecidableEq, Repr

/-- The code that a colour starts with. -/
def Paint.code : Paint → String
  | .key => "33"
  | .dim => "90"
  | .value => "92"
  | .alarm => "91"
  | .banner => "1;97;7"

/-- The control sequence of a code. -/
def sequence (code : String) : String := "\x1b[" ++ code ++ "m"

/-- A text in a colour, if the report is coloured. -/
def paint (t : Terminal) (p : Paint) (s : String) : String :=
  if t.color then sequence p.code ++ s ++ sequence "0" else s

/-- Blanks. -/
def blanks (n : Nat) : String := String.ofList (List.replicate n ' ')

/-- A field with its values below each other. -/
def field (t : Terminal) (key : String) : List String → String
  | [] => t.paint .key key ++ t.paint .dim "-"
  | value :: values =>
    String.intercalate "\n" ((t.paint .key key ++ t.paint .value value) ::
      values.map fun v => blanks key.length ++ t.paint .value v)

/-- The lines of a module. -/
def moduleLines (t : Terminal) (r : ModuleRecord) : List String := [
  t.field "name:       " [r.name],
  t.field "ports:      " r.ports,
  t.field "parameters: " r.parameters,
  t.field "imports:    " r.imports,
  t.field "instances:  " (r.instances.map Instance.describe),
  ""]

/-- The block of a file. -/
def fileBlock (t : Terminal) (path : String) (rs : List ModuleRecord) : String :=
  String.intercalate "\n" (t.paint .banner (path ++ " ") :: "" :: rs.flatMap t.moduleLines)

/-- The module report. -/
def modules (t : Terminal) (rs : List ModuleRecord) : String :=
  let blocks := (ModuleRecord.byFile rs).entries.map fun (path, group) => t.fileBlock path group
  Text.stripLineFeeds (String.intercalate "\n" blocks)

/-- The report of top modules. -/
def tops (t : Terminal) (names : List String) : String :=
  t.field "top modules: " names

/-- The line of an entry. -/
def entryLine (t : Terminal) (e : Entry) : String :=
  let name := match e.instance? with
    | none => t.paint .key e.type
    | some name => t.paint .value name ++ " " ++ t.paint .dim e.type
  let remark :=
    if !e.resolved then t.paint .dim " (no declaration)"
    else if e.recursive then t.paint .alarm " (recursive)"
    else ""
  blanks (t.indent * e.depth).toNat ++ name ++ remark

/-- The hierarchy report. -/
def hierarchy (t : Terminal) (es : List Entry) : String :=
  String.intercalate "\n" (es.map t.entryLine)

end Terminal

end DesignAtlas
