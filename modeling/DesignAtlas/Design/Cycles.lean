import DesignAtlas.Design.Basic
import Std.Data.HashMap
import Std.Data.HashSet

/-!
# Recursive groups

Modules that instantiate each other, directly or through others. Two modules belong
together when each is reachable from the other; a group is such a component with at
least two members, or a single module that instantiates itself.

The components are found by one depth-first search through the design, from its
modules in order. The search numbers the modules in the order in which it finds them,
and keeps those whose component is still open on a stack. For each of them it notes the
lowest number on the stack that the module is known to lead to. A module that leads to
none below its own is the first of its component: everything above it on the stack
belongs to it, and the component is closed.

So a component comes after all components that it reaches, and its members are listed
in the order in which the search finds them.
-/

namespace DesignAtlas

/-- How far a search for components has come. -/
structure ComponentSearch where
  /-- The numbers of the modules found. -/
  index : Std.HashMap String Nat
  /-- The lowest number on the stack that each module found is known to lead to. -/
  low : Std.HashMap String Nat
  /-- The modules whose component is open, the last one found first. -/
  stack : List String
  /-- The same modules, to look them up. -/
  onStack : Std.HashSet String
  /-- The components that are closed, in order. -/
  components : List (List String)
  /-- The number of the next module. -/
  counter : Nat

namespace ComponentSearch

/-- Nothing is found yet. -/
def start : ComponentSearch := ⟨∅, ∅, [], ∅, [], 0⟩

/-- Whether a module is found. -/
def found (s : ComponentSearch) (name : String) : Bool := s.index.contains name

/-- The number of a module that is found. -/
def number (s : ComponentSearch) (name : String) : Nat := s.index.getD name 0

/-- The lowest number that a module is known to lead to. -/
def lowest (s : ComponentSearch) (name : String) : Nat := s.low.getD name 0

/-- Finds a module: it gets the next number and goes on the stack. -/
def enter (s : ComponentSearch) (name : String) : ComponentSearch where
  index := s.index.insert name s.counter
  low := s.low.insert name s.counter
  stack := name :: s.stack
  onStack := s.onStack.insert name
  components := s.components
  counter := s.counter + 1

/-- Notes a number that a module leads to. -/
def lower (s : ComponentSearch) (name : String) (n : Nat) : ComponentSearch :=
  { s with low := s.low.insert name (min (s.lowest name) n) }

/-- The modules of a stack down to a given one, and those below it. -/
def popTo (name : String) : List String → List String × List String
  | [] => ([], [])
  | top :: stack =>
    if top = name then ([top], stack)
    else
      let (popped, rest) := popTo name stack
      (top :: popped, rest)

/-- Leaves a module whose instances are all followed. If it leads to none below itself,
its component is closed. -/
def leave (s : ComponentSearch) (name : String) : ComponentSearch :=
  if s.lowest name = s.number name then
    let (popped, rest) := popTo name s.stack
    { s with
      stack := rest
      onStack := popped.foldl (fun names other => names.erase other) s.onStack
      components := s.components ++ [popped.reverse] }
  else s

/-- Follows one instance of a module, searching from its type if that is not found yet. -/
def follow (visit : ComponentSearch → String → ComponentSearch) (name : String)
    (s : ComponentSearch) (used : String) : ComponentSearch :=
  if s.found used then
    if s.onStack.contains used then s.lower name (s.number used) else s
  else
    let s := visit s used
    s.lower name (s.lowest used)

/-- Searches from a module that is not found yet. The number bounds the depth. -/
def visit (next : String → List String) : Nat → ComponentSearch → String → ComponentSearch
  | 0, s, _ => s
  | depth + 1, s, name =>
    ((next name).foldl (follow (visit next depth) name) (s.enter name)).leave name

end ComponentSearch

namespace Design

/-- The modules of the design that a module instantiates, in order. -/
def uses (d : Design) (name : String) : List String :=
  ((d.get? name).map ModuleRecord.instanceTypes).getD [] |>.filter d.contains

/-- Searches from each of some modules that is not found yet. -/
def searchAll (d : Design) (s : ComponentSearch) (names : List String) : ComponentSearch :=
  names.foldl (fun s name => if s.found name then s else s.visit d.uses d.size name) s

/-- The modules of the design in components, each reachable from the others. -/
def components (d : Design) : List (List String) :=
  (d.searchAll .start d.keys).components

/-- Whether a module instantiates itself. -/
def usesItself (d : Design) (name : String) : Bool :=
  (d.get? name).any fun r => r.instantiates name

/-- Whether a component is recursive. -/
def isGroup (d : Design) (component : List String) : Bool :=
  2 ≤ component.length || component.any d.usesItself

/-- **The groups of modules that instantiate each other.** -/
def cycles (d : Design) : List (List String) :=
  d.components.filter d.isGroup

end Design

end DesignAtlas
