import Lexing.Source.Span

/-!
# Diagnostics

What a scan has to say about its source: a message at a place, with a level,
perhaps a code and some notes. They are collected in a log, in the order they
are reported.
-/

namespace Lexing

/-- How serious a diagnostic is, most serious first. -/
inductive Level where
  | error
  | warning
  | note
  deriving DecidableEq

namespace Level

/-- The word that opens a diagnostic of this level. -/
def name : Level → String
  | error => "error"
  | warning => "warning"
  | note => "note"

/-- The level with a given name. -/
def ofName? (s : String) : Option Level := [error, warning, note].find? (·.name == s)

/-- The place of a level in the order from most to least serious. -/
def severity : Level → Nat
  | error => 0
  | warning => 1
  | note => 2

end Level

/-- A letter and a number that name a kind of diagnostic. -/
structure DiagnosticCode where
  letter : String
  number : Nat
  deriving DecidableEq

namespace DiagnosticCode

/-- A number in decimal, filled up with zeros to four digits. -/
def padded (n : Nat) : String :=
  let digits := Nat.repr n
  String.ofList (List.replicate (4 - digits.length) '0') ++ digits

/-- The written code, as in `W0101`. -/
def render (c : DiagnosticCode) : String := c.letter ++ padded c.number

/-- The code with the name of its type around it. -/
def renderDetailed (c : DiagnosticCode) : String := s!"DiagnosticCode({c.render})"

/-- Input that no token accepted. -/
def unrecognizedInput : DiagnosticCode := ⟨"W", 101⟩

/-- A lexeme that the grammar refuses. -/
def rejectedLexeme : DiagnosticCode := ⟨"E", 201⟩

/-- A generated literal that did not read back. -/
def roundTrip : DiagnosticCode := ⟨"E", 301⟩

end DiagnosticCode

/-- A message about a place in a source. -/
structure Diagnostic where
  level : Level
  message : String
  span : Span := Span.none
  code : Option DiagnosticCode := none
  notes : List String := []
  deriving DecidableEq

namespace Diagnostic

/-- Set the span. -/
def withSpan (d : Diagnostic) (span : Span) : Diagnostic := { d with span }

/-- Set the code. -/
def withCode (d : Diagnostic) (code : DiagnosticCode) : Diagnostic :=
  { d with code := some code }

/-- Add a note after those already there. -/
def withNote (d : Diagnostic) (note : String) : Diagnostic :=
  { d with notes := d.notes ++ [note] }

/-- The level, followed by the code if there is one. -/
def heading (d : Diagnostic) : String :=
  match d.code with
  | some code => s!"{d.level.name}[{code.render}]"
  | none => d.level.name

/-- The lines shown to a reader: heading and message, place, notes. -/
def render (d : Diagnostic) : String :=
  s!"{d.heading}: {d.message}\n  --> {d.span.render}"
    ++ String.join (d.notes.map ("\n  = note: " ++ ·))

end Diagnostic

/-- The diagnostics reported so far, in the order of the reports. -/
structure DiagnosticLog where
  entries : List Diagnostic := []
  deriving DecidableEq

namespace DiagnosticLog

/-- A log without entries. -/
def empty : DiagnosticLog := {}

/-- Report a diagnostic. -/
def report (log : DiagnosticLog) (d : Diagnostic) : DiagnosticLog :=
  ⟨log.entries ++ [d]⟩

/-- How many diagnostics of a level have been reported. -/
def count (log : DiagnosticLog) (level : Level) : Nat :=
  log.entries.countP (·.level == level)

/-- Whether any error has been reported. -/
def hasErrors (log : DiagnosticLog) : Bool := log.entries.any (·.level == .error)

/-- Hand out every diagnostic and start over. -/
def drain (log : DiagnosticLog) : List Diagnostic × DiagnosticLog := (log.entries, empty)

end DiagnosticLog

end Lexing
