import DesignAtlas.Report.Csv
import DesignAtlas.Report.Document
import DesignAtlas.Report.Markdown
import DesignAtlas.Report.Terminal

/-!
# Renderers

The formats that reports are written in, each with its settings.
-/

namespace DesignAtlas

/-- A format of reports with its settings. -/
inductive Renderer where
  | terminal (settings : Terminal)
  | markdown
  | csv (separator : String)
  | json (indent : Option Int)
  deriving DecidableEq, Repr, Inhabited

namespace Renderer

/-- The facts of each module, in the given order. -/
def modules (r : Renderer) (rs : List ModuleRecord) : String :=
  match r with
  | terminal t => t.modules rs
  | markdown => Markdown.modules rs
  | csv separator => Csv.modules separator rs
  | json indent => (Document.modules rs).write (Document.layout indent)

/-- A list of top modules. -/
def tops (r : Renderer) (names : List String) : String :=
  match r with
  | terminal t => t.tops names
  | markdown => Markdown.tops names
  | csv _ => Csv.tops names
  | json indent => (Document.tops names).write (Document.layout indent)

/-- The entries of a hierarchy, in the order of their visits. -/
def hierarchy (r : Renderer) (es : List Entry) : String :=
  match r with
  | terminal t => t.hierarchy es
  | markdown => Markdown.hierarchy es
  | csv _ => Csv.hierarchy es
  | json indent => (Document.hierarchy es).write (Document.layout indent)

end Renderer

end DesignAtlas
