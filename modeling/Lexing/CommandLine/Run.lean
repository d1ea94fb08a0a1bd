import Lexing.CommandLine.Arguments
import Lexing.CommandLine.Failure
import Lexing.Random.ChaCha
import Lexing.RoundTrip
import Lexing.Scanner

/-!
# Running a command

A command is a function of its arguments and of what it finds around it: files,
environment variables, and a number to seed generation with where no seed is
given. It comes to what is printed and an exit code.
-/

namespace Lexing.CommandLine

/-- What a command finds around it. -/
structure Surroundings where
  environment : String → Option String
  fileExists : String → Bool
  read : String → Except ReadFailure String
  /-- seeds generation where no seed is given -/
  entropy : UInt64

/-- What a command comes to. -/
structure Report where
  code : Nat := 0
  stdout : String := ""
  stderr : String := ""
  deriving DecidableEq

/-- The configuration file that is read if it exists and no other is named. -/
def usualConfigFile : String := "lexm.toml"

/-- Read a configuration file. -/
def readConfig (s : Surroundings) (path : String) : Except ConfigFailure LexConfig :=
  match s.read path with
  | .error why => .error (.unread path why)
  | .ok document =>
    match LexConfig.read document.toList with
    | .error e => .error (.invalid e)
    | .ok config => .ok config

/-- **The configuration**: of the file that is named, of the usual file if
there is one, or the usual settings. -/
def loadConfig (s : Surroundings) (path : Option String) : Except ConfigFailure LexConfig :=
  match path with
  | some path => if s.fileExists path then readConfig s path else .error (.notFound path)
  | none => if s.fileExists usualConfigFile then readConfig s usualConfigFile else .ok {}

/-- Texts with a line end behind each. -/
def lines (texts : List String) : String := String.join (texts.map (· ++ "\n"))

/-- Records as an array over several lines. -/
def jsonArray (records : List Json) : String :=
  String.ofList (Json.pretty 0 (.array records)) ++ "\n"

/-! ## Literals -/

/-- A text and the value it has as a literal, if it is one. -/
structure LiteralRecord where
  text : List Char
  valid : Bool
  value : Option Value

namespace LiteralRecord

/-- The record of a lexeme. -/
def ofLexeme (l : Lexeme) : LiteralRecord := ⟨l.text, l.isRecognized, l.value⟩

/-- Text, kind and value with tabs between them. -/
def line (r : LiteralRecord) : String :=
  match r.value with
  | some v => String.ofList r.text ++ s!"\t{v.kind.name}\t" ++ String.ofList v.render
  | none => String.ofList r.text ++ "\tinvalid"

/-- The record for data exchange. -/
def toJson (r : LiteralRecord) : Json :=
  .object
    [("text", .text r.text),
     ("valid", .bool r.valid),
     ("type", (r.value.map fun v => Json.ofString v.kind.name).getD .null),
     ("value", (r.value.map Value.toJson).getD .null)]

/-- Records in a format. -/
def print (format : OutputFormat) (records : List LiteralRecord) : String :=
  match format with
  | .text => lines (records.map line)
  | .json => jsonArray (records.map toJson)

end LiteralRecord

/-- The token of numeric literals. -/
def numericToken (config : LexConfig) : Except Failure (Generator Numeric.Progress) :=
  (Token.numeric? config.numeric 0).mapError Failure.separators

/-- **Tell of each text whether it is a literal.** Only the whole text counts. -/
def extractLiterals (config : LexConfig) (literals : List String) :
    Except Failure (List LiteralRecord) := do
  let token ← numericToken config
  literals.mapM fun literal => do
    let text := literal.toList
    let lexeme ←
      (extract token.toToken text none config.tokenizer.encoding).mapError Failure.fault
    return if lexeme.text = text then .ofLexeme lexeme else ⟨text, false, none⟩

/-! ## Scanning -/

/-- **Scan a source** with the tokens of simple statements. -/
def scanSource (config : LexConfig) (reserved : List String) (source : String) :
    Except Failure (List Lexeme × DiagnosticLog) := do
  let generators ←
    (TokenSpec.buildAll (TokenSpec.statement config.numeric) 0).mapError Failure.ofBuild
  let scanner := Scanner.new (.ofTokens (generators.map (·.toToken))) config.tokenizer
  let words :=
    if reserved = [] then none else some (Reserved.ofList (reserved.map String.toList))
  let scanner := { scanner with
    tokenizer := { scanner.tokenizer with reserved := words }
    log := some .empty }
  let (lexemes, scanner) ← (scanner.scan source).mapError Failure.fault
  return (lexemes, scanner.log.getD .empty)

/-- The source to scan: the text that is given, or a file. -/
def sourceOf (s : Surroundings) (file text : Option String) : Except Failure String :=
  match text, file with
  | some text, _ => .ok text
  | none, some path => (s.read path).mapError (Failure.read path)
  | none, none => .error (.validation "nothing to scan: give a file or --text")

/-- Lexemes in a format. -/
def printLexemes (format : OutputFormat) (lexemes : List Lexeme) : String :=
  match format with
  | .text => lines (lexemes.map Lexeme.render)
  | .json => jsonArray (lexemes.map Lexeme.toJson)

/-- The report of a command that may fail after it has printed something. -/
def Report.failing (r : Report) (f : Option Failure) : Report :=
  match f with
  | none => r
  | some f => { r with code := f.code, stderr := r.stderr ++ f.render }

/-- Scan, print the lexemes and what there is to say about them. -/
def runScan (s : Surroundings) (config : LexConfig) (file text : Option String)
    (format : OutputFormat) (reserved : List String) (denyUnrecognized : Bool) :
    Except Failure Report := do
  let source ← sourceOf s file text
  let (lexemes, log) ← scanSource config reserved source
  let unrecognized := log.count .warning
  let report : Report :=
    { stdout := printLexemes format lexemes
      stderr := lines (log.entries.map Diagnostic.render) }
  return report.failing
    (if denyUnrecognized && 0 < unrecognized then some (.unrecognized unrecognized) else none)

/-! ## Generating -/

/-- Check the lengths to generate. -/
def checkLengths (min max : Nat) : Except Failure Unit :=
  if min = 0 ∨ max < min then
    .error (.validation s!"length range {min}..={max} is empty or starts at zero")
  else if maxGenerated < max then
    .error (.validation s!"--max may not exceed {maxGenerated}")
  else .ok ()

/-- The diagnostic about a literal that does not read back. -/
def roundTripDiagnostic (l : Lexeme) (problem : RoundTripProblem) : Diagnostic :=
  { level := .error
    message := s!"{Text.quoted l.text} does not read back"
    span := l.span
    code := some .roundTrip
    notes := [problem.message] }

/-- **The diagnostics about literals that do not read back.** -/
def checkLiterals (g : Generator Numeric.Progress) (literals : List Lexeme) :
    Except Failure (List Diagnostic) := do
  let problems ← literals.mapM fun l => do
    return (l, ← (roundTripProblem g l).mapError Failure.fault)
  return problems.filterMap fun (l, problem) => problem.map (roundTripDiagnostic l)

/-- Generate literals, print them, and check that they read back. -/
def runGenerate (s : Surroundings) (config : LexConfig) (seed : Option Nat)
    (count min max : Nat) (check : Bool) (format : OutputFormat) : Except Failure Report := do
  checkLengths min max
  let g ← numericToken config
  let seed := seed.map Nat.toUInt64 |>.getD s.entropy
  let literals ←
    (generateMany g none min max count (Random.chacha seed)).mapError Failure.fault
  let problems ← if check then checkLiterals g literals else .ok []
  let report : Report :=
    { stdout := LiteralRecord.print format (literals.map .ofLexeme)
      stderr := lines (problems.map Diagnostic.render) }
  return report.failing (if problems.isEmpty then none else some (.roundTrip problems.length))

/-! ## The program -/

/-- Run a command under a configuration. -/
def runCommand (s : Surroundings) (config : LexConfig) : Command → Except Failure Report
  | .scan file text format reserved denyUnrecognized =>
    runScan s config file text format reserved denyUnrecognized
  | .extract literals format => do
    return { stdout := LiteralRecord.print format (← extractLiterals config literals) }
  | .generate seed count min max check format =>
    runGenerate s config seed count min max check format

/-- Load the configuration and run the command. -/
def runInvocation (s : Surroundings) (i : Invocation) : Except Failure Report := do
  let config ← (loadConfig s i.config).mapError Failure.config
  runCommand s config i.command

/-- The version of the program. -/
def version : String := "0.1.0"

/-- How the program is used, in short. -/
def usage : String :=
  lines
    ["Usage: lexm [OPTIONS] <COMMAND>", "",
     "Commands:",
     "  scan      Scan a file or string into lexemes",
     "  extract   Check whether strings are numeric literals",
     "  generate  Generate random numeric literals"]

/-- **Run the program** on its arguments. A command line that makes no sense
ends with code 2 and the usage. -/
def run (s : Surroundings) (args : List String) : Report :=
  match parse s.environment args with
  | none => { code := 2, stderr := usage }
  | some .help => { stdout := usage }
  | some (.version name) => { stdout := s!"{name} {version}\n" }
  | some (.run invocation) =>
    match runInvocation s invocation with
    | .ok report => report
    | .error f => Report.failing {} (some f)

/-- The files that running the program may ask for. -/
def filesAsked (environment : String → Option String) (args : List String) : List String :=
  match parse environment args with
  | some (.run ⟨config, command⟩) =>
    let source := match command with
      | .scan (some file) _ _ _ _ => [file]
      | _ => []
    config.getD usualConfigFile :: source
  | _ => []

end Lexing.CommandLine
