import DesignAtlas.Json.Literal
import DesignAtlas.Module.Vocabulary
import DesignAtlas.Registry

/-!
# Components

What registries hold: ready-made values and vocabularies, and kinds of components that
are made on request, with options. The library has three registries of its own, for
renderers, for front-ends and for the vocabularies of the front-ends.
-/

namespace DesignAtlas

/-- Which options a kind of component takes. -/
inductive OptionRule where
  /-- Any options. -/
  | any
  /-- The named options. `owner` is the kind that declares them. -/
  | named (owner : String) (names : List String)
  /-- No options. -/
  | none
  deriving DecidableEq, Repr

/-- A kind of component. -/
structure Kind where
  name : String
  options : OptionRule
  deriving DecidableEq, Repr

/-- An item of a registry. -/
inductive Component where
  | value (j : Json)
  | vocabulary (v : Vocabulary)
  | kind (k : Kind)
  deriving Inhabited

/-- A component that was made, with the options it was given. -/
structure Made where
  kind : Kind
  options : List (String × Json)

namespace Component

/-- Why a component cannot be made. -/
inductive MakeError where
  /-- An option has a name that is not free for options. -/
  | repeatedArgument (name : String)
  /-- The item is ready-made. -/
  | notKind (itemKind : String)
  /-- An option is not known. -/
  | unknownOption (owner option : String)
  /-- The kind takes no options. -/
  | noOptions (kind : String)
  deriving DecidableEq, Repr

/-- The wording of an error. -/
def MakeError.message : MakeError → String
  | .repeatedArgument name => s!"Registry.create() got multiple values for argument '{name}'"
  | .notKind itemKind => s!"'{itemKind}' object is not callable"
  | .unknownOption owner option =>
    s!"{owner}.__init__() got an unexpected keyword argument '{option}'"
  | .noOptions name => s!"{name}() takes no arguments"

/-- How an item is named in messages. -/
def label : Component → String
  | value j => j.literal
  | vocabulary v => v.describe
  | kind k => k.name

/-- Makes a component with options. -/
def make (c : Component) (options : List (String × Json)) : Except MakeError Made :=
  match c with
  | value j => .error (.notKind j.kindName)
  | vocabulary _ => .error (.notKind "TagVocabulary")
  | kind k =>
    match k.options with
    | .any => .ok ⟨k, options⟩
    | .named owner names =>
      match options.find? fun (name, _) => !names.contains name with
      | some (name, _) => .error (.unknownOption owner name)
      | none => .ok ⟨k, options⟩
    | .none => if options.isEmpty then .ok ⟨k, []⟩ else .error (.noOptions k.name)

end Component

namespace Registry

/-- A registry of distinct items. -/
def ofList (name : String) (items : List (String × Component)) : Registry Component :=
  ⟨name, .ofList items⟩

/-- Why a registry gives no component. -/
inductive CreateError where
  | key (e : Error)
  | component (e : Component.MakeError)
  deriving DecidableEq, Repr

/-- The names that stand for the registry and the key, so that no option has them. -/
def takenNames : List String := ["self", "key"]

/-- **Makes the component under a key**, with options. The names of the options are looked
at before the key is. -/
def create (r : Registry Component) (key : String) (options : List (String × Json)) :
    Except CreateError Made :=
  match options.find? fun (name, _) => takenNames.contains name with
  | some (name, _) => .error (.component (.repeatedArgument name))
  | none => do
    let c ← (r.get key).mapError .key
    (c.make options).mapError .component

/-- The renderers. -/
def renderers : Registry Component := .ofList "renderer" [
  ("text", .kind ⟨"TextRenderer", .named "TextRenderer" ["color", "indent"]⟩),
  ("markdown", .kind ⟨"MarkdownRenderer", .none⟩),
  ("csv", .kind ⟨"CsvRenderer", .named "CsvRenderer" ["separator"]⟩),
  ("json", .kind ⟨"JsonRenderer", .named "JsonRenderer" ["indent"]⟩)]

/-- The front-ends. -/
def frontends : Registry Component := .ofList "frontend" [
  ("verible",
    .kind ⟨"VeribleVerilogSyntax", .named "VeribleVerilogSyntax" ["executable", "skip_null"]⟩),
  ("slang", .kind ⟨"SlangBackend", .named "SyntaxFrontend" ["skip_null"]⟩)]

/-- The vocabularies. -/
def vocabularies : Registry Component := .ofList "vocabulary" [
  ("verible", .vocabulary .verible), ("slang", .vocabulary .slang)]

end Registry

end DesignAtlas
