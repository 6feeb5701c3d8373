/-!
# Usage and help

What the command line tells about itself, laid out for eighty columns.
-/

namespace DesignAtlas.CommandLine

/-- What can be asked for. -/
inductive Command where
  | modules
  | top
  | hierarchy
  deriving DecidableEq, Repr, Inhabited

/-- The word for a command. -/
def Command.word : Command → String
  | .modules => "modules"
  | .top => "top"
  | .hierarchy => "hierarchy"

/-- All commands. -/
def Command.all : List Command := [.modules, .top, .hierarchy]

/-- The name of the program. -/
def programName : String := "hier.py"

/-- The name of the program with the command whose arguments are read, if one is. -/
def speaker : Option Command → String
  | none => programName
  | some c => programName ++ " " ++ c.word

/-- The lines of the usage of the program, or of a command. -/
def usageLines : Option Command → List String
  | none => [
    "usage: hier.py [-h] [--format \x7btext,markdown,csv,json\x7d]",
    "               [--frontend \x7bverible,slang\x7d] [--verible-path VERIBLE_PATH]",
    "               [--strict] [--no-color] [-v]",
    "               \x7bmodules,top,hierarchy\x7d ..."]
  | some .modules => ["usage: hier.py modules [-h] FILE [FILE ...]"]
  | some .top => ["usage: hier.py top [-h] FILE [FILE ...]"]
  | some .hierarchy => [
    "usage: hier.py hierarchy [-h] [--top MODULE] [--show-unresolved]",
    "                         FILE [FILE ...]"]

/-- The lines of the help that follow the usage. -/
def helpLines : Option Command → List String
  | none => [
    "",
    "Module and design hierarchy explorer for SystemVerilog.",
    "",
    "positional arguments:",
    "  \x7bmodules,top,hierarchy\x7d",
    "    modules             List modules with their ports, parameters, imports and",
    "                        instances.",
    "    top                 List top modules.",
    "    hierarchy           Print the instantiation hierarchy.",
    "",
    "options:",
    "  -h, --help            show this help message and exit",
    "  --format \x7btext,markdown,csv,json\x7d",
    "                        Output format (default: text).",
    "  --frontend \x7bverible,slang\x7d",
    "                        Syntax front-end (default: verible).",
    "  --verible-path VERIBLE_PATH",
    "                        verible-verilog-syntax executable (default:",
    "                        $SVHIER_VERIBLE_PATH or verible-verilog-syntax).",
    "  --strict              Fail when two modules share a name instead of keeping",
    "                        the last one.",
    "  --no-color            Disable ANSI colours in text output.",
    "  -v, --verbose         Enable verbose (debug) output."]
  | some .hierarchy => [
    "",
    "positional arguments:",
    "  FILE               SystemVerilog files to parse.",
    "",
    "options:",
    "  -h, --help         show this help message and exit",
    "  --top MODULE       Start from MODULE instead of the detected top modules",
    "                     (repeatable).",
    "  --show-unresolved  Also show instances of modules without a declaration."]
  | some _ => [
    "",
    "positional arguments:",
    "  FILE        SystemVerilog files to parse.",
    "",
    "options:",
    "  -h, --help  show this help message and exit"]

/-- Lines with their ends. -/
def unlines (ls : List String) : String := String.join (ls.map fun l => l ++ "\n")

/-- The usage of the program, or of a command. -/
def usage (c? : Option Command) : String := unlines (usageLines c?)

/-- The help of the program, or of a command. -/
def help (c? : Option Command) : String := unlines (usageLines c? ++ helpLines c?)

end DesignAtlas.CommandLine
