import DesignAtlas.Design.Walk
import DesignAtlas.Json.Writer

/-!
# Reports as JSON documents

The reports as lists of JSON values, and the text of such a list.
-/

namespace DesignAtlas.Document

/-- The layout for an indent. Without an indent all stands on one line, and an indent
below zero counts as zero. -/
def layout : Option Int → Json.Layout
  | none => .line
  | some n => .indented n.toNat

/-- The module report. -/
def modules (rs : List ModuleRecord) : Json :=
  .arr (rs.map ModuleRecord.toJson)

/-- The report of top modules. -/
def tops (names : List String) : Json :=
  .strings names

/-- The value of an entry. -/
def entryJson (e : Entry) : Json :=
  .obj [
    ("module", .str e.type),
    ("instance", .optional e.instance?),
    ("depth", .int e.depth),
    ("parent", .optional e.parent?),
    ("path", .optional e.path?),
    ("resolved", .bool e.resolved),
    ("recursive", .bool e.recursive)]

/-- The hierarchy report. -/
def hierarchy (es : List Entry) : Json :=
  .arr (es.map entryJson)

end DesignAtlas.Document
