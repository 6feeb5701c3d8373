import DesignAtlas.Text.Utf8
import DesignAtlas.Text.Printable
import DesignAtlas.Text.Digit
import DesignAtlas.Text.Quoted
import DesignAtlas.Text.CodePoints
import DesignAtlas.Text.Blank
import DesignAtlas.OrderedMap
import DesignAtlas.Decimal.Shortest
import DesignAtlas.Json.Basic
import DesignAtlas.Json.Literal
import DesignAtlas.Json.Reader
import DesignAtlas.Json.Writer
import DesignAtlas.Syntax.Source
import DesignAtlas.Syntax.Node
import DesignAtlas.Syntax.Export
import DesignAtlas.Syntax.Search
import DesignAtlas.Syntax.Graph
import DesignAtlas.Frontend.Disk
import DesignAtlas.Event
import DesignAtlas.Module.Record
import DesignAtlas.Module.Vocabulary
import DesignAtlas.Module.Extraction
import DesignAtlas.Design.Basic
import DesignAtlas.Design.Walk
import DesignAtlas.Design.Cycles
import DesignAtlas.Module.ByFile
import DesignAtlas.Report.Terminal
import DesignAtlas.Report.Markdown
import DesignAtlas.Report.Csv
import DesignAtlas.Report.Document
import DesignAtlas.Report.Renderer
import DesignAtlas.Registry
import DesignAtlas.Component
import DesignAtlas.Frontend.Parsed
import DesignAtlas.Frontend.Checker
import DesignAtlas.Frontend.Concrete
import DesignAtlas.Frontend.Basic
import DesignAtlas.Design.Analysis
import DesignAtlas.CommandLine.Options
import DesignAtlas.CommandLine.Usage
import DesignAtlas.CommandLine.Arguments
import DesignAtlas.CommandLine.Run
import DesignAtlas.Main
import DesignAtlas.Proofs.ComponentSearch
import DesignAtlas.Proofs.Cycles
import DesignAtlas.Proofs.Discovery
import DesignAtlas.Proofs.Walk
import DesignAtlas.Proofs.Coverage
import DesignAtlas.Proofs.Reached
import DesignAtlas.Proofs.Nesting
import DesignAtlas.Proofs.Notices
import DesignAtlas.Proofs.SelfSimilarity
import DesignAtlas.Proofs.Export
import DesignAtlas.Proofs.FirstFlaw
import DesignAtlas.Proofs.Leaves
import DesignAtlas.Proofs.Position
import DesignAtlas.Proofs.Listing
import DesignAtlas.Proofs.OnDemand
import DesignAtlas.Proofs.Containment
import DesignAtlas.Proofs.Pairing
import DesignAtlas.Proofs.Correspondence
import DesignAtlas.Proofs.Locality
import DesignAtlas.Proofs.Renaming
import DesignAtlas.Proofs.Grouping
import DesignAtlas.Proofs.Accumulation
import DesignAtlas.Proofs.Rejection
import DesignAtlas.Proofs.Decoding
import DesignAtlas.Proofs.ConcreteImage
import DesignAtlas.Proofs.Excerpts
import DesignAtlas.Proofs.Tiling
import DesignAtlas.Proofs.Reading
import DesignAtlas.Proofs.CheckerEntries
import DesignAtlas.Proofs.CheckerRun
import DesignAtlas.Proofs.Isolation
import DesignAtlas.Proofs.Loading
import DesignAtlas.Proofs.CsvReading
import DesignAtlas.Proofs.Outline
import DesignAtlas.Proofs.Tables
import DesignAtlas.Proofs.Parents
import DesignAtlas.Proofs.Reordering
import DesignAtlas.Proofs.Tops
import DesignAtlas.Proofs.Additions
import DesignAtlas.Proofs.JsonScalars
import DesignAtlas.Proofs.JsonReports
import DesignAtlas.Proofs.Colours
