import DesignAtlas.Event
import DesignAtlas.Module.Record
import DesignAtlas.OrderedMap

/-!
# Designs

A design holds the modules of a project under their names, in the order in which the
names first came. A second module of a known name either replaces the first, which is
noted, or is rejected.

The *top* modules are those that no other module of the design instantiates.
-/

namespace DesignAtlas

/-- The modules of a design under their names. -/
abbrev Design := OrderedMap String ModuleRecord

/-- What happens to a second module of a known name. -/
inductive NamePolicy where
  | replace
  | reject
  deriving DecidableEq, Repr, Inhabited

/-- Two modules of one name, with the paths of both. -/
structure Duplicate where
  name : String
  firstPath : String
  secondPath : String
  deriving DecidableEq, Repr

/-- The wording of a rejection. -/
def Duplicate.message (d : Duplicate) : String :=
  s!"module '{d.name}' defined in {d.firstPath} and {d.secondPath}"

namespace Design

/-- Puts a record under its name, and notes the record that it replaces. -/
def put (d : Design) (r : ModuleRecord) : Design × List Event :=
  (d.insert r.name r,
    ((d.get? r.name).map fun old => Event.overridden r.name r.path old.path).toList)

/-- Adds a record, unless the policy rejects it. -/
def add (policy : NamePolicy) (d : Design) (r : ModuleRecord) :
    Except Duplicate (Design × List Event) :=
  match policy, d.get? r.name with
  | .reject, some old => .error ⟨r.name, old.path, r.path⟩
  | _, _ => .ok (d.put r)

/-- One call that adds a record: the design after it, and what it noted or why the record
was rejected. A rejection leaves the design as it was. -/
def attempt (policy : NamePolicy) (d : Design) (r : ModuleRecord) :
    Design × Except Duplicate (List Event) :=
  match d.add policy r with
  | .error e => (d, .error e)
  | .ok (d, noted) => (d, .ok noted)

/-- Adds records in order, until the policy rejects one. -/
def addAll (policy : NamePolicy) :
    Design → List ModuleRecord → Except Duplicate (Design × List Event)
  | d, [] => .ok (d, [])
  | d, r :: rs =>
    match d.add policy r with
    | .error e => .error e
    | .ok (d, noted) => (addAll policy d rs).map fun (d, more) => (d, noted ++ more)

/-- The design of some records, of which a later one replaces an earlier one of its
name. -/
def ofRecords (rs : List ModuleRecord) : Design × List Event :=
  rs.foldl (fun (d, noted) r => let (d, more) := d.put r; (d, noted ++ more)) (.empty, [])

/-- The names of the modules that no other module of the design instantiates. A module
that instantiates itself is not another one. -/
def tops (d : Design) : List String :=
  d.keys.filter fun name =>
    !d.values.any fun parent =>
      parent.instances.any fun i => i.type == name && i.type != parent.name

/-- A design in a few words. -/
def describe (d : Design) : String :=
  "ModuleSet(" ++ Text.quotedList d.keys ++ ")"

end Design

end DesignAtlas
