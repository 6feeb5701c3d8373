import DesignAtlas.Syntax.Search

/-!
# Tag vocabularies

The tags by which the constructs of a module are found in a tree. Each parser names
its grammar productions in its own way, so there is one vocabulary a parser.
-/

namespace DesignAtlas

/-- The tags of the constructs that are looked for. -/
structure Vocabulary where
  moduleDeclaration : TagFilter
  moduleHeader : TagFilter
  port : TagFilter
  parameter : TagFilter
  packageImport : TagFilter
  instanceName : TagFilter
  instantiationType : TagFilter
  identifier : TagFilter
  deriving Repr, Inhabited

namespace Vocabulary

/-- The tags of Verible. -/
def verible : Vocabulary where
  moduleDeclaration := .ofTags ["kModuleDeclaration"]
  moduleHeader := .ofTags ["kModuleHeader"]
  port := .ofTags ["kPortDeclaration", "kPort"]
  parameter := .ofTags ["kParamDeclaration"]
  packageImport := .ofTags ["kPackageImportItem"]
  instanceName := .ofTags ["kGateInstance"]
  instantiationType := .ofTags ["kInstantiationType"]
  identifier := .ofTags ["SymbolIdentifier", "EscapedIdentifier"]

/-- The tags of slang, which has one kind for plain and escaped identifiers. -/
def slang : Vocabulary where
  moduleDeclaration := .ofTags ["ModuleDeclaration"]
  moduleHeader := .ofTags ["ModuleHeader"]
  port := .ofTags ["ImplicitAnsiPort", "ExplicitAnsiPort", "ImplicitNonAnsiPort", "PortDeclaration"]
  parameter := .ofTags ["ParameterDeclaration", "TypeParameterDeclaration"]
  packageImport := .ofTags ["PackageImportItem"]
  instanceName := .ofTags ["HierarchicalInstance"]
  instantiationType := .ofTags ["HierarchyInstantiation"]
  identifier := .ofTags ["Identifier"]

/-- The filters of a vocabulary with their names, in a fixed order. -/
def filters (v : Vocabulary) : List (String × TagFilter) := [
  ("module_declaration", v.moduleDeclaration),
  ("module_header", v.moduleHeader),
  ("port", v.port),
  ("parameter", v.parameter),
  ("package_import", v.packageImport),
  ("instance_name", v.instanceName),
  ("instantiation_type", v.instantiationType),
  ("identifier", v.identifier)]

/-- A vocabulary in words. -/
def describe (v : Vocabulary) : String :=
  let shown := v.filters.map fun (name, f) => name ++ "=" ++ f.describe
  "TagVocabulary(" ++ String.intercalate ", " shown ++ ")"

end Vocabulary

end DesignAtlas
