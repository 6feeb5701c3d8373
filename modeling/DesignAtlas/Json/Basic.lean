import DesignAtlas.OrderedMap
import DesignAtlas.Text.CodePoints

/-!
# JSON values

A value keeps the fields of an object in order, no name twice, and tells whole
numbers from numbers with a fraction or an exponent. Texts and names are lists of code
points.
-/

namespace DesignAtlas

/-- A JSON value. -/
inductive Json where
  | null
  | bool (b : Bool)
  | int (n : Int)
  | float (x : Float)
  | str (s : CodePoints)
  | arr (items : List Json)
  | obj (fields : List (CodePoints × Json))
  deriving Inhabited

namespace Json

/-- The field of an object. -/
def field? : Json → String → Option Json
  | .obj fields, name => fields.lookup (CodePoints.ofString name)
  | _, _ => none

/-- The field of an object, where an absent field counts as null. -/
def field (j : Json) (name : String) : Json :=
  (j.field? name).getD .null

/-- Whether a value is null. -/
def isNull : Json → Bool
  | .null => true
  | _ => false

/-- The name of a value's kind, as messages give it. -/
def kindName : Json → String
  | .null => "NoneType"
  | .bool _ => "bool"
  | .int _ => "int"
  | .float _ => "float"
  | .str _ => "str"
  | .arr _ => "list"
  | .obj _ => "dict"

/-- A list of texts as a value. -/
def strings (ss : List String) : Json :=
  .arr (ss.map fun s : String => .str s)

/-- An object with the given fields. -/
def object (fields : List (String × Json)) : Json :=
  .obj (fields.map fun (name, j) => (CodePoints.ofString name, j))

/-- A text or null as a value. -/
def optional : Option String → Json
  | none => .null
  | some s => .str s

end Json

end DesignAtlas
