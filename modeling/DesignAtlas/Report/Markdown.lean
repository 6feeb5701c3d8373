import DesignAtlas.Design.Walk

/-!
# Reports in Markdown

Modules as the rows of a table, whose cells hold several values on lines of their
own; the hierarchy as a nested list.
-/

namespace DesignAtlas.Markdown

/-- The headings of the module table. -/
def headings : List String := ["Module", "File", "Ports", "Parameters", "Imports", "Instances"]

/-- A row of cells. -/
def row (cells : List String) : String := "| " ++ String.intercalate " | " cells ++ " |"

/-- The row below the headings, which aligns the columns to the left. -/
def alignment : String :=
  let mark := fun (heading : String) =>
    String.ofList (':' :: List.replicate (heading.length + 1) '-')
  "|" ++ String.intercalate "|" (headings.map mark) ++ "|"

/-- Several values in one cell. -/
def cell (values : List String) : String := String.intercalate "<br/>" values

/-- The row of a module. -/
def moduleRow (r : ModuleRecord) : String :=
  row [r.name, r.path, cell r.ports, cell r.parameters, cell r.imports,
    cell (r.instances.map Instance.describe)]

/-- The module report. -/
def modules (rs : List ModuleRecord) : String :=
  String.intercalate "\n" (row headings :: alignment :: rs.map moduleRow)

/-- The report of top modules. -/
def tops (names : List String) : String :=
  String.intercalate "\n" (names.map fun name => "- " ++ name)

/-- The line of an entry. -/
def entryLine (e : Entry) : String :=
  let name := match e.instance? with
    | none => "**" ++ e.type ++ "**"
    | some name => name ++ " : `" ++ e.type ++ "`"
  let remark :=
    if !e.resolved then " _(no declaration)_"
    else if e.recursive then " _(recursive)_"
    else ""
  String.ofList (List.replicate (2 * e.depth).toNat ' ') ++ "- " ++ name ++ remark

/-- The hierarchy report. -/
def hierarchy (es : List Entry) : String :=
  String.intercalate "\n" (es.map entryLine)

end DesignAtlas.Markdown
