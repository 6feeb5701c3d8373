import DesignAtlas.Json.Basic

/-!
# Module records

The facts of one module declaration: where it was found, its name, the names of its
ports and parameters, the packages it imports and the modules it instantiates. Every
list is in source order, with repetitions as found.
-/

namespace DesignAtlas

/-- A named use of a module inside another one. -/
structure Instance where
  name : String
  type : String
  deriving DecidableEq, Repr, Inhabited

/-- An instance in a few words. -/
def Instance.describe (i : Instance) : String := s!"{i.type} {i.name}"

/-- The facts of one module declaration. -/
structure ModuleRecord where
  path : String
  name : String
  ports : List String
  parameters : List String
  imports : List String
  instances : List Instance
  deriving DecidableEq, Repr, Inhabited

namespace ModuleRecord

/-- The names of the instances, in order. -/
def instanceNames (r : ModuleRecord) : List String := r.instances.map Instance.name

/-- The types of the instances, in order. -/
def instanceTypes (r : ModuleRecord) : List String := r.instances.map Instance.type

/-- Whether some instance has the given type. -/
def instantiates (r : ModuleRecord) (type : String) : Bool :=
  r.instances.any fun i => i.type == type

/-- A record in a few words. -/
def describe (r : ModuleRecord) : String := s!"module {r.name}"

/-- A record as a JSON value. The instances are given as two lists of equal length. -/
def toJson (r : ModuleRecord) : Json :=
  .obj [
    ("path", .str r.path),
    ("name", .str r.name),
    ("ports", .strings r.ports),
    ("parameters", .strings r.parameters),
    ("imports", .strings r.imports),
    ("instances", .obj [("name", .strings r.instanceNames), ("type", .strings r.instanceTypes)])]

end ModuleRecord

end DesignAtlas
