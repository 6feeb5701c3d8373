import DesignAtlas.Frontend.Disk
import DesignAtlas.Syntax.Export

/-!
# Events

What the library notes while it works. Events are values that come back with the
results, in the order in which they happened; each has a severity and a message.
-/

namespace DesignAtlas

/-- How serious an event is. -/
inductive Severity where
  | debug
  | warning
  deriving DecidableEq, Repr

/-- Something noted on the way. -/
inductive Event where
  /-- A module declaration has no header. -/
  | headerless (path : String)
  /-- A module declaration has no name. -/
  | nameless (path : String)
  /-- The instance names and types of a module differ in number. -/
  | unpaired (path name : String) (names types : Nat)
  /-- The modules of a file were read. -/
  | extracted (path : String) (count : Nat)
  /-- A module replaces another one of its name. -/
  | overridden (name newPath oldPath : String)
  /-- An instance has a type without a declaration. -/
  | undeclared (type : String)
  /-- An instance has a type that is being expanded above it. -/
  | recursion (type : String) (ancestors : List String)
  /-- An exported tree is malformed. -/
  | unusableTree (path : String) (malformed : Malformed)
  /-- A source file could not be read. -/
  | unreadable (path : String) (error : Disk.Error)
  /-- A program is run. -/
  | running (command : List String)
  /-- A parser reported errors. -/
  | syntaxErrors (path : String) (count : Nat)
  deriving DecidableEq, Repr

namespace Event

/-- How serious an event is. -/
def severity : Event → Severity
  | headerless _ => .debug
  | nameless _ => .debug
  | unpaired .. => .warning
  | extracted .. => .debug
  | overridden .. => .warning
  | undeclared _ => .debug
  | recursion .. => .warning
  | unusableTree .. => .warning
  | unreadable .. => .warning
  | running _ => .debug
  | syntaxErrors .. => .debug

/-- The wording of an event. -/
def message : Event → String
  | headerless path => s!"{path}: module declaration without header skipped"
  | nameless path => s!"{path}: module declaration without name skipped"
  | unpaired path name names types =>
    s!"{path}: module {name} has {names} instance name(s) but {types} instance type(s); " ++
      "its instances are skipped"
  | extracted path count => s!"{path}: {count} module(s) extracted"
  | overridden name newPath oldPath =>
    s!"module {name} from {newPath} overrides the one from {oldPath}"
  | undeclared type => s!"no declaration for {type}, not expanded"
  | recursion type ancestors =>
    let chain := String.intercalate " > " ancestors
    s!"recursive instantiation of {type} below {chain}, not expanded"
  | unusableTree path malformed => s!"{path}: unusable syntax tree: {malformed.message}"
  | unreadable path error => s!"could not read {path}: {error.message path}"
  | running command => "running " ++ String.intercalate " " command
  | syntaxErrors path count => s!"{path}: {count} syntax error(s)"

end Event

end DesignAtlas
