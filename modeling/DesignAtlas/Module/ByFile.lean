import DesignAtlas.Module.Record

/-!
# Modules by file

Records grouped by the file they were found in. The groups come in the order in which
their files first occur, and each holds its records in the given order.
-/

namespace DesignAtlas.ModuleRecord

/-- Puts a record at the end of the group of its file. -/
def fileUnder (groups : OrderedMap String (List ModuleRecord)) (r : ModuleRecord) :
    OrderedMap String (List ModuleRecord) :=
  groups.insert r.path ((groups.get? r.path).getD [] ++ [r])

/-- The records grouped by file. -/
def byFile (rs : List ModuleRecord) : OrderedMap String (List ModuleRecord) :=
  rs.foldl fileUnder .empty

end DesignAtlas.ModuleRecord
