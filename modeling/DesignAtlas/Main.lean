import DesignAtlas.CommandLine.Run

/-!
# The program

Gathers the surroundings of a run, runs the command line and prints what it comes to.
No other program is started from here: what the syntax checker printed for the files is
read from standard input.
-/

namespace DesignAtlas.CommandLine

/-- The rest of a stream. -/
partial def readRest (stream : IO.FS.Stream) (soFar : ByteArray) : IO ByteArray := do
  let chunk ← stream.read 65536
  if chunk.isEmpty then return soFar else readRest stream (soFar ++ chunk)

/-- The file that a path leads to, if it can be read. -/
def lookUp (path : String) : IO (Option (String × Option Bytes)) := do
  try
    let contents ← IO.FS.readBinFile path
    return some (path, some contents.toList)
  catch _ => return none

/-- The surroundings of a run with the given arguments. -/
def surroundings (argv : List String) : IO Surroundings := do
  let printed ← if usesChecker argv then readRest (← IO.getStdin) .empty else pure .empty
  let output := Utf8.decode printed.toList
  let base := Disk.place [] (toString (← IO.currentDir))
  let files ← (pathsRead argv output).filterMapM lookUp
  return {
    disk := .ofFiles base files
    environment? := ← IO.getEnv "SVHIER_VERIBLE_PATH"
    checkerRun := .finished 0 output ""
    parser? := none
    terminal := ← (← IO.getStdout).isTty }

end DesignAtlas.CommandLine

open DesignAtlas.CommandLine in
/-- The program. -/
def main (argv : List String) : IO UInt32 := do
  match run (← surroundings argv) argv with
  | .error failure =>
    IO.eprintln failure.message
    return 1
  | .ok result =>
    IO.eprint result.errorOutput
    IO.print result.output
    match result.exit with
    | .status n => return n.toUInt32
    | .complaint message =>
      IO.eprintln message
      return 1
