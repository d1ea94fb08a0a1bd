import Lexing.Text.Quoted

/-!
# Reading a command line

Options come as `--name value`, `--name=value`, `-n value` or `-nvalue`; flags
without a value may share a dash. A value that begins with a dash must be
joined to its option. Behind `--` every argument is taken as it is. The
options that concern the program as a whole may stand before or behind the
name of the command; the one behind counts.

Each option may be given once, except for the one that collects a list.
-/

namespace Lexing.CommandLine

/-- How results are printed. -/
inductive OutputFormat where
  | text
  | json
  deriving DecidableEq

/-- What to do, with all that belongs to it. -/
inductive Command where
  /-- scan a file or a text into lexemes -/
  | scan (file : Option String) (text : Option String) (format : OutputFormat)
      (reserved : List String) (denyUnrecognized : Bool)
  /-- tell whether texts are numeric literals -/
  | extract (literals : List String) (format : OutputFormat)
  /-- make numeric literals -/
  | generate (seed : Option Nat) (count min max : Nat) (check : Bool) (format : OutputFormat)
  deriving DecidableEq

/-- A command line that has been understood. -/
structure Invocation where
  config : Option String
  command : Command
  deriving DecidableEq

/-- What a command line comes to. -/
inductive Request where
  | run (invocation : Invocation)
  /-- print the version under a name -/
  | version (name : String)
  | help
  deriving DecidableEq

/-- How often an option may be given, and whether it has a value. -/
inductive Arity where
  | flag
  | single
  /-- any number of times, each with values between commas -/
  | list
  deriving DecidableEq

/-- What the value of an option must look like. -/
inductive ValueShape where
  | any
  /-- anything but nothing -/
  | path
  /-- a natural number below `2^64` -/
  | number
  | format
  deriving DecidableEq

/-- An option that a command knows. -/
structure OptionSpec where
  name : String
  short : Option Char
  arity : Arity
  shape : ValueShape := .any

/-- The options of the program as a whole. -/
def globalOptions : List OptionSpec :=
  [⟨"verbose", some 'v', .flag, .any⟩, ⟨"config", some 'c', .single, .path⟩,
   ⟨"no-color", none, .flag, .any⟩]

/-- The options that print something and do nothing else. -/
def askingOptions : List OptionSpec :=
  [⟨"help", some 'h', .flag, .any⟩, ⟨"version", some 'V', .flag, .any⟩]

/-- The option that chooses the form of the output. -/
def formatOption : OptionSpec := ⟨"format", some 'f', .single, .format⟩

/-- A command with its options and the number of its other arguments. -/
structure CommandSpec where
  name : String
  options : List OptionSpec
  /-- the largest number of arguments that are no options; `none` for any -/
  operands : Option Nat
  /-- what those arguments must look like -/
  shape : ValueShape := .any

/-- Every command. -/
def commands : List CommandSpec :=
  [{ name := "scan"
     options :=
       [⟨"text", some 't', .single, .any⟩, formatOption, ⟨"reserved", some 'r', .list, .any⟩,
        ⟨"deny-unrecognized", none, .flag, .any⟩]
     operands := some 1
     shape := .path },
   { name := "extract", options := [formatOption], operands := none },
   { name := "generate"
     options :=
       [⟨"seed", some 's', .single, .number⟩, ⟨"count", some 'n', .single, .number⟩,
        ⟨"min", none, .single, .number⟩, ⟨"max", none, .single, .number⟩,
        ⟨"check", none, .flag, .any⟩, formatOption]
     operands := some 0 }]

/-- A natural number below `2^64`, perhaps with a plus sign. -/
def number? (s : String) : Option Nat :=
  let digits := match s.toList with
    | '+' :: rest => rest
    | rest => rest
  if digits = [] ∨ !digits.all Char.isDigit then none
  else
    let n := digits.foldl (fun n c => n * 10 + (c.toNat - '0'.toNat)) 0
    if n < 0x10000000000000000 then some n else none

/-- The format with a given name. -/
def format? (s : String) : Option OutputFormat :=
  if s = "text" then some .text else if s = "json" then some .json else none

/-- Whether a value has the shape that its option asks for. -/
def ValueShape.accepts (shape : ValueShape) (s : String) : Bool :=
  match shape with
  | .any => true
  | .path => s != ""
  | .number => (number? s).isSome
  | .format => (format? s).isSome

/-- Cut a text at every comma. -/
def splitCommas (s : List Char) : List (List Char) :=
  s.foldr (fun c parts =>
    if c = ',' then [] :: parts
    else match parts with
      | part :: rest => (c :: part) :: rest
      | [] => [[c]]) [[]]

/-- The options and other arguments read so far. A flag is given with an empty
value. -/
structure Parsed where
  given : List (String × String) := []
  operands : List String := []
  deriving DecidableEq

namespace Parsed

/-- Whether an option is given. -/
def has (p : Parsed) (name : String) : Bool := (p.given.lookup name).isSome

/-- The value of an option. -/
def value? (p : Parsed) (name : String) : Option String := p.given.lookup name

/-- Every value of an option. -/
def values (p : Parsed) (name : String) : List String :=
  (p.given.filter (·.1 == name)).map (·.2)

end Parsed

/-- How reading goes on after an argument. -/
inductive Outcome (α : Type) where
  | ok (a : α)
  /-- the command line makes no sense -/
  | usage
  /-- an option asks for something to be printed, and no more -/
  | asked (name : String)
  deriving DecidableEq

/-- Enter an option with a value. -/
def enter (p : Parsed) (spec : OptionSpec) (value : String) : Outcome Parsed :=
  if spec.name = "help" ∨ spec.name = "version" then .asked spec.name
  else if spec.arity ≠ .list ∧ p.has spec.name then .usage
  else
    let values :=
      if spec.arity = .list then (splitCommas value.toList).map String.ofList else [value]
    if spec.arity ≠ .flag ∧ !values.all spec.shape.accepts then .usage
    else .ok { p with given := p.given ++ values.map (spec.name, ·) }

/-- Whether an argument may be the value of the option before it: it does not
begin with a dash, or is nothing but a dash. -/
def canBeValue (s : String) : Bool :=
  match s.toList with
  | ['-'] => true
  | '-' :: _ => false
  | _ => true

/-- What an option makes of the rest of its argument and the arguments behind
it: the state after it and the arguments left. -/
def takeValue (p : Parsed) (spec : OptionSpec) (joined : Option String) (rest : List String) :
    Outcome (Parsed × List String) :=
  let finish (value : String) (rest : List String) : Outcome (Parsed × List String) :=
    match enter p spec value with
    | .ok p => .ok (p, rest)
    | .usage => .usage
    | .asked name => .asked name
  match joined with
  | some value => finish value rest
  | none =>
    match rest with
    | value :: rest => if canBeValue value then finish value rest else .usage
    | [] => .usage

/-- Read the letters behind a single dash. -/
def shortOptions (specs : List OptionSpec) (p : Parsed) (rest : List String) :
    List Char → Outcome (Parsed × List String)
  | [] => .ok (p, rest)
  | c :: letters =>
    match specs.find? (·.short == some c) with
    | none => .usage
    | some spec =>
      if spec.arity = .flag then
        match enter p spec "" with
        | .ok p => shortOptions specs p rest letters
        | .usage => .usage
        | .asked name => .asked name
      else
        let joined := match letters with
          | [] => none
          | '=' :: value => some (String.ofList value)
          | value => some (String.ofList value)
        takeValue p spec joined rest

/-- Read an option with a long name. -/
def longOption (specs : List OptionSpec) (p : Parsed) (rest : List String) (s : List Char) :
    Outcome (Parsed × List String) :=
  let name := String.ofList (s.takeWhile (· != '='))
  let joined := match s.dropWhile (· != '=') with
    | '=' :: value => some (String.ofList value)
    | _ => none
  match specs.find? (·.name == name) with
  | none => .usage
  | some spec =>
    if spec.arity = .flag then
      if joined.isSome then .usage
      else match enter p spec "" with
        | .ok p => .ok (p, rest)
        | .usage => .usage
        | .asked name => .asked name
    else takeValue p spec joined rest

/-- Read options up to the first argument that is none. `fuel` is the number
of arguments, of which each step takes at least one. -/
def leadingOptions (specs : List OptionSpec) :
    Nat → Parsed → List String → Outcome (Parsed × List String)
  | 0, p, rest => .ok (p, rest)
  | _ + 1, p, [] => .ok (p, [])
  | fuel + 1, p, arg :: rest =>
    let step := match arg.toList with
      | ['-', '-'] => none
      | '-' :: '-' :: name => some (longOption specs p rest name)
      | ['-'] => none
      | '-' :: letters => some (shortOptions specs p rest letters)
      | _ => none
    match step with
    | none => .ok (p, arg :: rest)
    | some (.ok (p, rest)) => leadingOptions specs fuel p rest
    | some .usage => .usage
    | some (.asked name) => .asked name

/-- Enter arguments that are no options. -/
def enterOperands (command : CommandSpec) (p : Parsed) (args : List String) : Outcome Parsed :=
  let operands := p.operands ++ args
  if command.operands.any (· < operands.length) ∨ !args.all command.shape.accepts then .usage
  else .ok { p with operands }

/-- Read options and other arguments in any order. -/
def allArguments (command : CommandSpec) (specs : List OptionSpec) :
    Nat → Parsed → List String → Outcome Parsed
  | 0, p, _ => .ok p
  | fuel + 1, p, args =>
    match leadingOptions specs args.length p args with
    | .ok (p, []) => .ok p
    | .ok (p, "--" :: rest) => enterOperands command p rest
    | .ok (p, arg :: rest) =>
      match enterOperands command p [arg] with
      | .ok p => allArguments command specs fuel p rest
      | .usage => .usage
      | .asked name => .asked name
    | .usage => .usage
    | .asked name => .asked name

/-- The command that the arguments behind its name describe. -/
def Command.of? (name : String) (p : Parsed) : Option Command :=
  let format := ((p.value? "format").bind format?).getD .text
  let number (name : String) := (p.value? name).bind number?
  if name = "scan" then
    if p.has "text" ∧ p.operands ≠ [] then none
    else some (.scan p.operands.head? (p.value? "text") format (p.values "reserved")
      (p.has "deny-unrecognized"))
  else if name = "extract" then
    if p.operands = [] then none else some (.extract p.operands format)
  else
    some (.generate (number "seed") ((number "count").getD 10) ((number "min").getD 1)
      ((number "max").getD 12) (p.has "check") format)

/-- The environment variable that can give a global option, for the options
that have one. -/
def variableOf (option : String) : String :=
  if option = "verbose" then "LEXM_VERBOSE"
  else if option = "config" then "LEXM_CONFIG"
  else "LEXM_NO_COLOR"

/-- Whether the environment gives an option what it may: a path, or a truth
value for a flag. It matters only where the option itself is missing. -/
def environmentFits (environment : String → Option String) (p : Parsed) : Bool :=
  globalOptions.all fun spec =>
    p.has spec.name ||
      (environment (variableOf spec.name)).all fun value =>
        if spec.arity = .flag then value == "true" || value == "false"
        else spec.shape.accepts value

/-- The configuration file: named behind the command, before it, or by the
environment. -/
def configPath (environment : String → Option String) (outer inner : Parsed) : Option String :=
  (inner.value? "config").or ((outer.value? "config").or (environment (variableOf "config")))

/-- The name under which the version of a command is printed. -/
def versionName (command : Option String) : String :=
  match command with
  | some name => s!"lexm-{name}"
  | none => "lexm"

/-- An option that prints something, for the program or one of its commands. -/
def asked (option : String) (command : Option String) : Request :=
  if option = "version" then .version (versionName command) else .help

/-- Whether the arguments behind the help command name a command. -/
def helpTopic (args : List String) : Bool :=
  match args with
  | [] => true
  | [name] => name = "help" || commands.any (·.name == name)
  | _ => false

/-- **Understand a command line.** There is no answer to one that makes no
sense. -/
def parse (environment : String → Option String) (args : List String) : Option Request :=
  match leadingOptions (globalOptions ++ askingOptions) args.length {} args with
  | .usage => none
  | .asked option => some (asked option none)
  | .ok (_, []) => none
  | .ok (outer, name :: rest) =>
    if name = "help" then (if helpTopic rest then some .help else none)
    else
      match commands.find? (·.name == name) with
      | none => none
      | some command =>
        let specs := globalOptions ++ askingOptions ++ command.options
        match allArguments command specs (rest.length + 1) {} rest with
        | .usage => none
        | .asked option => some (asked option (some name))
        | .ok inner =>
          if environmentFits environment outer && environmentFits environment inner then
            (Command.of? name inner).map fun command =>
              .run ⟨configPath environment outer inner, command⟩
          else none

end Lexing.CommandLine
