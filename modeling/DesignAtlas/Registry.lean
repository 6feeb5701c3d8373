import DesignAtlas.OrderedMap
import DesignAtlas.Text.Quoted

/-!
# Registries

Items under short keys, in the order in which they were added. A key is given once.
-/

namespace DesignAtlas

/-- A named collection of items under keys. -/
structure Registry (α : Type) where
  /-- What the registry holds, for its messages. -/
  name : String
  items : OrderedMap String α

namespace Registry

variable {α : Type}

/-- Why a key cannot be used. -/
inductive Error where
  /-- The key has an item already. -/
  | taken (registry key label : String)
  /-- The key has no item. -/
  | unknown (registry key : String) (known : List String)
  deriving DecidableEq, Repr

/-- The wording of an error. The known keys are listed in order of their characters. -/
def Error.message : Error → String
  | .taken registry key label => s!"{registry}: key '{key}' already registered to {label}"
  | .unknown registry key known =>
    let sorted := String.intercalate ", " (known.mergeSort fun a b => a ≤ b)
    s!"{registry}: unknown key '{key}'. Available: {sorted}"

/-- A registry without items. -/
def empty (name : String) : Registry α := ⟨name, .empty⟩

/-- The keys in order. -/
def keys (r : Registry α) : List String := r.items.keys

/-- Adds an item under a new key. `label` names the item that has the key already. -/
def add (label : α → String) (r : Registry α) (key : String) (item : α) :
    Except Error (Registry α) :=
  match r.items.get? key with
  | some owner => .error (.taken r.name key (label owner))
  | none => .ok { r with items := r.items.insert key item }

/-- The item under a key. -/
def get (r : Registry α) (key : String) : Except Error α :=
  match r.items.get? key with
  | some item => .ok item
  | none => .error (.unknown r.name key r.keys)

/-- A registry in a few words. -/
def describe (r : Registry α) : String :=
  "Registry(" ++ Text.quoted r.name ++ ", " ++ Text.quotedList r.keys ++ ")"

end Registry

end DesignAtlas
