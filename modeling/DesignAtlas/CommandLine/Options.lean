import DesignAtlas.Text.Digit
import DesignAtlas.Text.Quoted

/-!
# Options

How the words of a command line are told apart, and how options are read from them. An
option has one or more names and changes some settings `σ`; it stands alone or takes a
value. A long option may be shortened as long as it stays unique, and takes its value
after an equals sign or in the next word. Short options may share a word, with or without
an equals sign after the first. All words after `--` are operands.
-/

namespace DesignAtlas.CommandLine

/-- Why a command line is refused. -/
inductive UsageError where
  /-- A shortened option that fits several options. -/
  | ambiguous (word : String) (candidates : List String)
  /-- An option without the value it takes. -/
  | expectedValue (option : String)
  /-- A value for an option that takes none. -/
  | ignoredValue (option value : String)
  /-- A value that is not among the choices. -/
  | invalidChoice (argument value : String) (choices : List String)
  /-- An argument that must be given. -/
  | required (argument : String)
  /-- Words that belong to nothing. -/
  | unrecognized (words : List String)
  deriving DecidableEq, Repr

/-- The wording of a refusal. -/
def UsageError.message : UsageError → String
  | ambiguous word candidates =>
    s!"ambiguous option: {word} could match " ++ String.intercalate ", " candidates
  | expectedValue option => s!"argument {option}: expected one argument"
  | ignoredValue option value =>
    s!"argument {option}: ignored explicit argument {Text.quoted value}"
  | invalidChoice argument value choices =>
    let listed := String.intercalate ", " (choices.map Text.quoted)
    s!"argument {argument}: invalid choice: {Text.quoted value} (choose from {listed})"
  | required argument => s!"the following arguments are required: {argument}"
  | unrecognized words => "unrecognized arguments: " ++ String.intercalate " " words

/-- Why reading a command line ends early. -/
inductive Interrupt where
  | help
  | refused (error : UsageError)
  deriving DecidableEq, Repr

/-- What an option does. -/
inductive Action (σ : Type) where
  | help
  | flag (apply : σ → σ)
  | value (choices? : Option (List String)) (apply : Option String → σ → σ)

/-- An option. -/
structure OptionSpec (σ : Type) where
  names : List String
  action : Action σ

variable {σ : Type}

/-- How an option is named in messages. -/
def OptionSpec.label (o : OptionSpec σ) : String := String.intercalate "/" o.names

/-- Whether an option takes a value. -/
def OptionSpec.takesValue (o : OptionSpec σ) : Bool :=
  match o.action with
  | .value .. => true
  | _ => false

/-- What a word of a command line is. -/
inductive Word (σ : Type) where
  | operand (text : String)
  /-- The word `--`. -/
  | separator
  | option (spec : OptionSpec σ) (name : String) (attached? : Option (List Char)) (text : String)
  | unknown (text : String)

/-- The text of a word. -/
def Word.text : Word σ → String
  | operand text => text
  | separator => "--"
  | option _ _ _ text => text
  | unknown text => text

/-! ## Telling words apart -/

/-- The options under all their names, in order. -/
def namedSpecs (specs : List (OptionSpec σ)) : List (String × OptionSpec σ) :=
  specs.flatMap fun o => o.names.map fun name => (name, o)

/-- The parts of a word before and after its first equals sign. -/
def splitMark (cs : List Char) : List Char × Option (List Char) :=
  match cs.dropWhile (· != '=') with
  | _ :: value => (cs.takeWhile (· != '='), some value)
  | [] => (cs, none)

/-- The options that a word with an unknown name may be meant for. A word with two
dashes is a shortened name; one with a single dash is a short option with something
attached, or a shortened name. -/
def candidates (specs : List (OptionSpec σ)) (cs : List Char) :
    List (OptionSpec σ × String × Option (List Char)) :=
  match cs with
  | '-' :: '-' :: _ =>
    let (start, value?) := splitMark cs
    (namedSpecs specs).filterMap fun (name, o) =>
      if start.isPrefixOf name.toList then some (o, name, value?) else none
  | _ =>
    (namedSpecs specs).filterMap fun (name, o) =>
      if name.toList = cs.take 2 then some (o, name, some (cs.drop 2))
      else if cs.isPrefixOf name.toList then some (o, name, none)
      else none

/-- What a word before `--` is. -/
def classify (specs : List (OptionSpec σ)) (text : String) : Except UsageError (Word σ) :=
  let cs := text.toList
  let known := fun (name : List Char) => (namedSpecs specs).find? fun (n, _) => n.toList = name
  if cs.head? != some '-' then .ok (.operand text)
  else
    match known cs with
    | some (name, o) => .ok (.option o name none text)
    | none =>
      if cs.length = 1 then .ok (.operand text)
      else
        match splitMark cs with
        | (start, some value) =>
          match known start with
          | some (name, o) => .ok (.option o name (some value) text)
          | none => guess cs
        | (_, none) => guess cs
where
  /-- What a word is whose name is not known as it stands. -/
  guess (cs : List Char) : Except UsageError (Word σ) :=
    match candidates specs cs with
    | [(o, name, attached?)] => .ok (.option o name attached? text)
    | [] =>
      if Text.isNegativeNumber text || cs.contains ' ' then .ok (.operand text)
      else .ok (.unknown text)
    | several => .error (.ambiguous text (several.map fun (_, name, _) => name))

/-- What the words of a command line are. -/
def classifyAll (specs : List (OptionSpec σ)) : List String → Except UsageError (List (Word σ))
  | [] => .ok []
  | text :: texts =>
    if text = "--" then .ok (.separator :: texts.map .operand)
    else do
      let word ← classify specs text
      return word :: (← classifyAll specs texts)

/-! ## Reading options -/

/-- What a word of options asks for: the options with their values, and the option that
takes its value from the next word. -/
structure Request (σ : Type) where
  settled : List (OptionSpec σ × Option String)
  open? : Option (OptionSpec σ)

/-- Adds an option in front. -/
def Request.after (o : OptionSpec σ) (r : Request σ) : Request σ :=
  { r with settled := (o, none) :: r.settled }

/-- What a word asks for that ends with an option. -/
def plainRequest (o : OptionSpec σ) : Request σ :=
  if o.takesValue then ⟨[], some o⟩ else ⟨[(o, none)], none⟩

/-- What a word asks for whose option has something attached. What is attached to a short
option without a value is further short options, all of which must be known. -/
def attachedRequest (specs : List (OptionSpec σ)) :
    OptionSpec σ → Bool → List Char → Except UsageError (Request σ)
  | o, short, attached =>
    if o.takesValue then .ok ⟨[(o, some (String.ofList attached))], none⟩
    else
      let ignored := .error (.ignoredValue o.label (String.ofList attached))
      match attached with
      | [] => ignored
      | c :: rest =>
        if !short then ignored
        else
          match (namedSpecs specs).find? fun (n, _) => n.toList = ['-', c] with
          | none => ignored
          | some (_, next) =>
            if rest.isEmpty then .ok ((plainRequest next).after o)
            else (attachedRequest specs next true rest).map (Request.after o)

/-- What a word of options asks for. -/
def request (specs : List (OptionSpec σ)) (o : OptionSpec σ) (name : String) :
    Option (List Char) → Except UsageError (Request σ)
  | none => .ok (plainRequest o)
  | some attached => attachedRequest specs o (!name.startsWith "--") attached

/-- Changes the settings by an option with its value. The value `--` counts as none, and
is among any choices. -/
def OptionSpec.apply (o : OptionSpec σ) (value? : Option String) (settings : σ) :
    Except Interrupt σ :=
  match o.action, value? with
  | .help, _ => .error .help
  | .flag apply, _ => .ok (apply settings)
  | .value _ _, none => .error (.refused (.expectedValue o.label))
  | .value choices? apply, some value =>
    if value = "--" then .ok (apply none settings)
    else
      match choices? with
      | some choices =>
        if choices.contains value then .ok (apply (some value) settings)
        else .error (.refused (.invalidChoice o.label value choices))
      | none => .ok (apply (some value) settings)

/-- Changes the settings by options in order. -/
def applyAll (settled : List (OptionSpec σ × Option String)) (settings : σ) :
    Except Interrupt σ :=
  settled.foldlM (fun settings (o, value?) => o.apply value? settings) settings

/-- Reads an option at the front of some words: the settings after it, and whether it takes
the next word too. -/
def readOption (specs : List (OptionSpec σ)) (o : OptionSpec σ) (name : String)
    (attached? : Option (List Char)) (rest : List (Word σ)) (settings : σ) :
    Except Interrupt (σ × Bool) := do
  let asked ← (request specs o name attached?).mapError .refused
  match asked.open?, rest with
  | none, _ => return (← applyAll asked.settled settings, false)
  | some last, .operand value :: _ =>
    return (← applyAll (asked.settled ++ [(last, some value)]) settings, true)
  | some last, _ => .error (.refused (.expectedValue last.label))

end DesignAtlas.CommandLine
