import DesignAtlas.Event
import DesignAtlas.Module.Record
import DesignAtlas.Module.Vocabulary

/-!
# Reading modules out of a tree

Every module declaration of a tree has an *outcome*: a record, or the reason why there
is none.

* The name is the first identifier of the module header. Without a header or a name
  the declaration is skipped.
* Ports and parameters are looked for in the header only; each gives its first
  identifier.
* Package imports are looked for in the whole declaration and recorded with their
  full text.
* Instance names and instance types come from two searches over the whole declaration
  and are paired by position. When their numbers differ, any pairing could be wrong,
  and the record has no instances.
-/

namespace DesignAtlas

/-- What a module declaration gives. -/
inductive Outcome where
  | headerless
  | nameless
  | found (record : ModuleRecord)
  /-- A record without instances, as the numbers of their names and types differ. -/
  | unpaired (record : ModuleRecord) (names types : Nat)
  deriving DecidableEq, Repr

namespace Outcome

/-- The record of an outcome. -/
def record? : Outcome → Option ModuleRecord
  | found r => some r
  | unpaired r _ _ => some r
  | _ => none

/-- What is noted of an outcome. -/
def event? (path : String) : Outcome → Option Event
  | headerless => some (.headerless path)
  | nameless => some (.nameless path)
  | found _ => none
  | unpaired r names types => some (.unpaired path r.name names types)

end Outcome

namespace Vocabulary

/-- The text of the first identifier below a node. -/
def firstIdentifier? (v : Vocabulary) (source : Source) (n : Node) : Option String :=
  (n.find? v.identifier).map (Node.text source)

/-- The first identifier of every accepted node in a scope; nodes without one are
passed over. -/
def identifiers (v : Vocabulary) (source : Source) (scope : Node) (f : TagFilter) : List String :=
  (scope.findAll f none).filterMap (v.firstIdentifier? source)

/-- The outcome of a module declaration. -/
def readDeclaration (v : Vocabulary) (source : Source) (path : String) (n : Node) : Outcome :=
  match n.find? v.moduleHeader with
  | none => .headerless
  | some header =>
    let name := (v.firstIdentifier? source header).getD ""
    if name.isEmpty then .nameless
    else
      let names := v.identifiers source n v.instanceName
      let types := v.identifiers source n v.instantiationType
      let record := fun (instances : List Instance) =>
        { path
          name
          ports := v.identifiers source header v.port
          parameters := v.identifiers source header v.parameter
          imports := (n.findAll v.packageImport none).map (Node.text source)
          instances : ModuleRecord }
      if names.length = types.length then .found (record (List.zipWith Instance.mk names types))
      else .unpaired (record []) names.length types.length

/-- The outcomes of the module declarations of a tree, nested ones included, in
document order. -/
def outcomes (v : Vocabulary) (path : String) (t : Tree) : List Outcome :=
  (t.root.findAll v.moduleDeclaration none).map (v.readDeclaration t.source path)

/-- **The modules of a file** and what is noted on the way. A file without a tree has
none. -/
def extract (v : Vocabulary) (path : String) (tree? : Option Tree) :
    List ModuleRecord × List Event :=
  let outcomes := (tree?.map (v.outcomes path)).getD []
  let records := outcomes.filterMap Outcome.record?
  (records, outcomes.filterMap (Outcome.event? path) ++ [.extracted path records.length])

end Vocabulary

end DesignAtlas
