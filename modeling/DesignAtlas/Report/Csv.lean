import DesignAtlas.Design.Walk
import DesignAtlas.Text.Blank

/-!
# Reports as comma-separated values

One row for each module, top module or entry below a row of headings. A cell with a
comma, a quote or a line feed is quoted, and its quotes are doubled; so is the cell of
a row that would otherwise be empty. Rows end with a line feed, of which the last is
left out.
-/

namespace DesignAtlas.Csv

/-- Whether a cell has to be quoted. -/
def needsQuotes (cs : List Char) : Bool :=
  cs.any fun c => c == ',' || c == '"' || c == '\n'

/-- A cell in quotes, its own quotes doubled. -/
def quote (cs : List Char) : List Char :=
  '"' :: cs.flatMap (fun c => if c == '"' then ['"', '"'] else [c]) ++ ['"']

/-- A cell as it is written. -/
def cell (s : String) : String :=
  let cs := s.toList
  String.ofList (if needsQuotes cs then quote cs else cs)

/-- A row with its line end. -/
def row (cells : List String) : String :=
  (if cells = [""] then "\"\"" else String.intercalate "," (cells.map cell)) ++ "\n"

/-- Rows below their headings. -/
def table (headings : List String) (rows : List (List String)) : String :=
  Text.stripLineFeeds (String.join ((headings :: rows).map row))

/-- The cells of a module, several values joined by a separator. -/
def moduleCells (separator : String) (r : ModuleRecord) : List String :=
  let joined := String.intercalate separator
  [r.path, r.name, joined r.ports, joined r.parameters, joined r.imports, joined r.instanceNames,
    joined r.instanceTypes]

/-- The module report. -/
def modules (separator : String) (rs : List ModuleRecord) : String :=
  table ["File", "Module", "Ports", "Parameters", "Imports", "Instance Names", "Instance Types"]
    (rs.map (moduleCells separator))

/-- The report of top modules. -/
def tops (names : List String) : String :=
  table ["Top Module"] (names.map fun name => [name])

/-- The cells of an entry. -/
def entryCells (e : Entry) : List String :=
  [toString e.depth, e.instance?.getD "", e.type, e.parent?.getD "", e.path?.getD ""]

/-- The hierarchy report. -/
def hierarchy (es : List Entry) : String :=
  table ["Depth", "Instance", "Module", "Parent", "File"] (es.map entryCells)

end DesignAtlas.Csv
