import DesignAtlas.CommandLine.Options
import DesignAtlas.CommandLine.Usage
import DesignAtlas.Component

/-!
# Arguments

What a command line asks for. The options of the program come first; the first operand
is the command, and all words after it are read as the options and files of the
command. Words that belong to nothing are reported once everything has been read.
-/

namespace DesignAtlas.CommandLine

/-- The options of the program. -/
structure Settings where
  /-- The format of the report, unless it was given without a value. -/
  format? : Option String
  /-- The front-end, unless it was given without a value. -/
  frontend? : Option String
  executable? : Option String
  strict : Bool
  noColor : Bool
  verbose : Bool
  deriving DecidableEq, Repr, Inhabited

/-- The settings without any options. -/
def Settings.default : Settings := ⟨some "text", some "verible", none, false, false, false⟩

/-- The options of a command. -/
structure CommandSettings where
  /-- The top modules; one that was given without a value has no name. -/
  tops : List (Option String)
  showUndeclared : Bool
  deriving DecidableEq, Repr, Inhabited

/-- The option that asks for help. -/
def helpOption {σ : Type} : OptionSpec σ := ⟨["-h", "--help"], .help⟩

/-- The options of the program. -/
def programOptions : List (OptionSpec Settings) := [
  helpOption,
  ⟨["--format"], .value (some Registry.renderers.keys) fun v s => { s with format? := v }⟩,
  ⟨["--frontend"], .value (some Registry.frontends.keys) fun v s => { s with frontend? := v }⟩,
  ⟨["--verible-path"], .value none fun v s => { s with executable? := v }⟩,
  ⟨["--strict"], .flag fun s => { s with strict := true }⟩,
  ⟨["--no-color"], .flag fun s => { s with noColor := true }⟩,
  ⟨["-v", "--verbose"], .flag fun s => { s with verbose := true }⟩]

/-- The options of a command. -/
def commandOptions : Command → List (OptionSpec CommandSettings)
  | .hierarchy => [
    helpOption,
    ⟨["--top"], .value none fun v s => { s with tops := s.tops ++ [v] }⟩,
    ⟨["--show-unresolved"], .flag fun s => { s with showUndeclared := true }⟩]
  | _ => [helpOption]

/-- What a command line asks for. -/
inductive Asked where
  /-- Nothing: no command is given. -/
  | nothing
  | help (c? : Option Command)
  | refused (c? : Option Command) (error : UsageError)
  | run (settings : Settings) (command : Command) (own : CommandSettings) (files : List String)
  deriving DecidableEq, Repr

/-! ## The words of a command -/

/-- The files of a command: not begun, being gathered, or complete. -/
inductive Gathering where
  | waiting
  | open (files : List String)
  | closed (files : List String)
  deriving DecidableEq, Repr

/-- Ends the files at an option. -/
def Gathering.close : Gathering → Gathering
  | .open files => .closed files
  | g => g

/-- The words that were gathered. -/
def Gathering.words? : Gathering → Option (List String)
  | .waiting => none
  | .open files => some files
  | .closed files => some files

/-- Takes an operand as a file, unless the files are complete. -/
def Gathering.take (text : String) (extras : List String) : Gathering → Gathering × List String
  | .waiting => (.open [text], extras)
  | .open files => (.open (files ++ [text]), extras)
  | .closed files => (.closed files, extras ++ [text])

/-- What the words of a command come to: its options, its files, and the words that
belong to nothing. -/
structure CommandWords where
  own : CommandSettings
  gathering : Gathering
  extras : List String

/-- Reads the words of a command. The files are the first run of operands; the word
`--` may stand in it. -/
def readCommandWords (specs : List (OptionSpec CommandSettings)) :
    CommandWords → List (Word CommandSettings) → Except Interrupt CommandWords
  | st, [] => .ok st
  | st, .operand text :: rest =>
    let (gathering, extras) := st.gathering.take text st.extras
    readCommandWords specs { st with gathering, extras } rest
  | st, .separator :: rest =>
    if rest.isEmpty && st.gathering == .waiting then
      .ok { st with extras := st.extras ++ ["--"] }
    else
      let (gathering, extras) := st.gathering.take "--" st.extras
      readCommandWords specs { st with gathering, extras } rest
  | st, .unknown text :: rest =>
    readCommandWords specs
      { st with gathering := st.gathering.close, extras := st.extras ++ [text] } rest
  | st, .option o name attached? _ :: rest => do
    let (own, usesNext) ← readOption specs o name attached? rest st.own
    let st := { st with own, gathering := st.gathering.close }
    match usesNext, rest with
    | true, _ :: rest => readCommandWords specs st rest
    | _, rest => readCommandWords specs st rest

/-- Reads the arguments of a command: its options, its files and the words that belong
to nothing. The first `--` among the files is left out. -/
def readCommand (c : Command) (texts : List String) :
    Except Interrupt (CommandSettings × List String × List String) := do
  let words ← (classifyAll (commandOptions c) texts).mapError .refused
  let st ← readCommandWords (commandOptions c) ⟨⟨[], false⟩, .waiting, []⟩ words
  match st.gathering.words? with
  | none => .error (.refused (.required "FILE"))
  | some files => return (st.own, files.erase "--", st.extras)

/-! ## The words of the program -/

/-- What the words of the program come to: its options, the words from the command on,
and the words before it that belong to nothing. -/
structure ProgramWords where
  settings : Settings
  command? : Option (List String)
  extras : List String

/-- Reads the words of the program up to its command. -/
def readProgramWords :
    ProgramWords → List (Word Settings) → Except Interrupt ProgramWords
  | st, [] => .ok st
  | st, .operand text :: rest => .ok { st with command? := some (text :: rest.map Word.text) }
  | st, .separator :: rest =>
    if rest.isEmpty then .ok { st with extras := st.extras ++ ["--"] }
    else .ok { st with command? := some ("--" :: rest.map Word.text) }
  | st, .unknown text :: rest => readProgramWords { st with extras := st.extras ++ [text] } rest
  | st, .option o name attached? _ :: rest => do
    let (settings, usesNext) ← readOption programOptions o name attached? rest st.settings
    let st := { st with settings }
    match usesNext, rest with
    | true, _ :: rest => readProgramWords st rest
    | _, rest => readProgramWords st rest

/-- What an early end comes to. -/
def Interrupt.asked (c? : Option Command) : Interrupt → Asked
  | .help => .help c?
  | .refused error => .refused c? error

/-- **What a command line asks for.** -/
def ask (argv : List String) : Asked :=
  let words := (classifyAll programOptions argv).mapError Interrupt.refused
  match words >>= readProgramWords ⟨.default, none, []⟩ with
  | .error e => e.asked none
  | .ok st =>
    match st.command? with
    | none => if st.extras.isEmpty then .nothing else .refused none (.unrecognized st.extras)
    | some [] => .nothing
    | some (word :: texts) =>
      match Command.all.find? fun c => c.word == word with
      | none => .refused none (.invalidChoice "command" word (Command.all.map Command.word))
      | some c =>
        match readCommand c texts with
        | .error e => e.asked (some c)
        | .ok (own, files, extras) =>
          let extras := st.extras ++ extras
          if extras.isEmpty then .run st.settings c own files
          else .refused none (.unrecognized extras)

end DesignAtlas.CommandLine
