import Lexing.Config
import Lexing.Token.Catalog

/-!
# Why a command fails

A failing command prints what went wrong and, below it, what caused that, one
line for each cause. A fault of the program itself is told apart by its exit
code.
-/

namespace Lexing.CommandLine

/-- Why a file cannot be read as a text. -/
inductive ReadFailure where
  | missing
  | directory
  /-- a part of the path before the last is no directory -/
  | notDirectory
  /-- the bytes are no UTF-8 -/
  | notText
  | other (message : String)
  deriving DecidableEq

namespace ReadFailure

/-- What the system says. -/
def message : ReadFailure → String
  | missing => "No such file or directory (os error 2)"
  | directory => "Is a directory (os error 21)"
  | notDirectory => "Not a directory (os error 20)"
  | notText => "stream did not contain valid UTF-8"
  | other message => message

end ReadFailure

/-- Why a configuration cannot be had. -/
inductive ConfigFailure where
  /-- the file asked for does not exist -/
  | notFound (path : String)
  | unread (path : String) (why : ReadFailure)
  | invalid (e : ConfigError)
  deriving DecidableEq

namespace ConfigFailure

/-- What went wrong with a configuration, and its causes. -/
def chain : ConfigFailure → List String
  | notFound path => [s!"Configuration file not found: {path}"]
  | unread path why =>
    let access := s!"Failed to access {path}: {why.message}"
    [s!"Configuration error: {access}", access, why.message]
  | invalid (.separators e) => [s!"Configuration error: {e.message}", e.message]
  | invalid .unreadable =>
    let reading := "Failed to parse configuration: no valid document with the known settings"
    [s!"Configuration error: {reading}", reading]

end ConfigFailure

/-- Why a command fails. -/
inductive Failure where
  | config (why : ConfigFailure)
  | separators (e : SeparatorError)
  | read (path : String) (why : ReadFailure)
  /-- the arguments contradict each other -/
  | validation (message : String)
  /-- unrecognized input, which was not to be -/
  | unrecognized (count : Nat)
  /-- generated literals that do not read back -/
  | roundTrip (count : Nat)
  | fault (f : Fault)
  deriving DecidableEq

namespace Failure

/-- What went wrong, and its causes, one behind the other. -/
def chain : Failure → List String
  | config why => "failed to load configuration" :: why.chain
  | separators e => [s!"Configuration error: {e.message}", e.message]
  | read path why => [s!"Failed to read {path}: {why.message}", why.message]
  | validation message => [s!"Validation error: {message}"]
  | unrecognized count => [s!"{count} unrecognized span(s) in input"]
  | roundTrip count => [s!"{count} generated literal(s) failed the round trip"]
  | fault f => [f.message.getD "internal fault"]

/-- The exit code. -/
def code : Failure → Nat
  | fault _ => 101
  | _ => 1

/-- Put blanks in front of every line but the first. -/
def indentLines (blanks : String) (s : String) : String :=
  String.ofList (s.toList.flatMap fun c => if c = '\n' then '\n' :: blanks.toList else [c])

/-- One cause of several, with its number. -/
def numbered (cause : String) (i : Nat) : String :=
  s!"\n    {i}: " ++ indentLines "       " cause

/-- **The lines printed about a failure.** -/
def render (f : Failure) : String :=
  match f.chain with
  | [] => "Error\n"
  | [message] => s!"Error: {message}\n"
  | [message, cause] =>
    s!"Error: {message}\n\nCaused by:\n    " ++ indentLines "    " cause ++ "\n"
  | message :: causes =>
    s!"Error: {message}\n\nCaused by:"
      ++ String.join (causes.zipIdx.map fun (cause, i) => numbered cause i) ++ "\n"

end Failure

/-- A token that cannot be built fails the command. -/
def Failure.ofBuild : BuildError → Failure
  | .separators e => .separators e
  | .fault f => .fault f

end Lexing.CommandLine
