import DesignAtlas.Text.Quoted
import DesignAtlas.Text.Utf8

/-!
# Files

Files and directories, and what a path leads to. A path is followed name by name, from
the working directory or from the root: `.` and an empty name stay where they are, `..`
goes up, and every name but the last must be that of a directory.
-/

namespace DesignAtlas

/-- Some files and directories. A place is given by the names that lead to it from the
root. The directories above a listed place exist as well, and so do the working
directory and those above it. -/
structure Disk where
  /-- The place of the working directory. -/
  base : List String
  /-- Places with the contents of their files, where `none` stands for a directory. -/
  listing : List (List String × Option Bytes)
  deriving Inhabited

namespace Disk

/-- Why a path gives no contents. -/
inductive Error where
  | notFound
  | notDirectory
  | isDirectory
  | nameTooLong
  /-- The path holds a NUL, so that it is no path at all. -/
  | nulInPath
  deriving DecidableEq, Repr

/-- The number and wording of an error. -/
def Error.wording : Error → String
  | .notFound => "[Errno 2] No such file or directory"
  | .notDirectory => "[Errno 20] Not a directory"
  | .isDirectory => "[Errno 21] Is a directory"
  | .nameTooLong => "[Errno 36] File name too long"
  | .nulInPath => "embedded null byte"

/-- The message of an error for a path. -/
def Error.message (e : Error) (path : String) : String :=
  e.wording ++ ": " ++ Text.quoted path

/-- The greatest length of a name in bytes. -/
def nameLimit : Nat := 255

/-- The length in bytes that a path must stay below. -/
def pathLimit : Nat := 4096

/-- The names of a path. -/
def names (path : String) : List String := path.splitOn "/"

/-- Goes from a place by a name. -/
def go (place : List String) (name : String) : List String :=
  if name == "" || name == "." then place
  else if name == ".." then place.dropLast
  else place ++ [name]

/-- The place where a path starts. -/
def origin (base : List String) (path : String) : List String :=
  if path.startsWith "/" then [] else base

/-- The place of a path. -/
def place (base : List String) (path : String) : List String :=
  (names path).foldl go (origin base path)

/-- The files and directories with the given paths. -/
def ofFiles (base : List String) (files : List (String × Option Bytes)) : Disk :=
  ⟨base, files.map fun (path, contents) => (place base path, contents)⟩

/-- What stands at a place. -/
inductive Thing where
  | directory
  | file (contents : Bytes)
  deriving DecidableEq, Repr

/-- What stands at a place. -/
def thing? (d : Disk) (place : List String) : Option Thing :=
  if place.isPrefixOf d.base then some .directory
  else
    match d.listing.find? fun (listed, _) => listed == place with
    | some (_, some contents) => some (.file contents)
    | some (_, none) => some .directory
    | none =>
      if d.listing.any fun (listed, _) => place.isPrefixOf listed then some .directory else none

/-- Follows names from a directory. -/
def follow (d : Disk) : List String → List String → Except Error Thing
  | _, [] => .ok .directory
  | here, name :: rest =>
    if nameLimit < name.utf8ByteSize then .error .nameTooLong
    else
      match d.thing? (go here name) with
      | none => .error .notFound
      | some .directory => d.follow (go here name) rest
      | some (.file contents) => if rest.isEmpty then .ok (.file contents) else .error .notDirectory

/-- What a path leads to. -/
def resolve (d : Disk) (path : String) : Except Error Thing :=
  if path.contains '\x00' then .error .nulInPath
  else if path.isEmpty then .error .notFound
  else if pathLimit ≤ path.utf8ByteSize then .error .nameTooLong
  else d.follow (origin d.base path) (names path)

/-- The contents of the file that a path leads to. -/
def read (d : Disk) (path : String) : Except Error Bytes :=
  match d.resolve path with
  | .ok (.file contents) => .ok contents
  | .ok .directory => .error .isDirectory
  | .error e => .error e

/-- Whether a path leads to a file. -/
def isFile (d : Disk) (path : String) : Bool :=
  match d.resolve path with
  | .ok (.file _) => true
  | _ => false

end Disk

end DesignAtlas
