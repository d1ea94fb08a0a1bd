import Lexing.Diagnostic
import Lexing.Grammar

/-!
# Scanning a source under a grammar

A scanner feeds its tokenizer until lexemes are ready, lets the grammar choose
one, commits it, and moves the tokenizer back to its end. Unrecognized lexemes
are committed like any other.

Each search for a lexeme is a recursion over the units that are left, and each
commit must leave fewer of them, so a scan ends. That the scanner never stalls,
that is, commits nothing without moving forward, is a property of the
tokenizer; the scanner checks it and does not rely on it.
-/

namespace Lexing

/-- A scanner in the middle of its source. -/
structure Scanner (σ S : Type) where
  grammar : Grammar σ S
  state : S
  tokenizer : Tokenizer σ
  /-- where diagnostics go, if anywhere -/
  log : Option DiagnosticLog := none

namespace Scanner

variable {σ S : Type}

/-- A scanner at the start of its source. -/
def new (g : Grammar σ S) (config : TokenizerConfig) : Scanner σ S where
  grammar := g
  state := g.initial
  tokenizer := g.setup g.initial (.new (g.tokens g.initial) config)

/-- The diagnostic about a lexeme that is to be committed, if it calls for
one. -/
def remark (g : Grammar σ S) (s : S) (l : Lexeme) : Option Diagnostic :=
  if !l.isRecognized then
    some { level := .warning
           message := s!"unrecognized input {Text.quoted l.text}"
           code := some .unrecognizedInput
           span := l.span }
  else if !g.permits s l then
    some { level := .error
           message := s!"{String.ofList l.text} is not valid here"
           code := some .rejectedLexeme
           span := l.span }
  else none

/-- **Feed units until lexemes are ready**, and take them. At the end of the
units the tokenizer is finished; no lexeme then means that there is none. -/
def search (t : Tokenizer σ) : List UInt32 → Except Fault (List Lexeme × Tokenizer σ)
  | [] => do
    let (_, t) ← t.finish
    return t.take
  | u :: rest => do
    let (ready, t) ← t.feed u
    if ready && !t.results.isEmpty then return t.take
    else search t rest

/-- The lexeme that the grammar chooses. -/
def choose (s : Scanner σ S) (lexemes : List Lexeme) : Option Lexeme :=
  lexemes[min (s.grammar.select s.state lexemes) (lexemes.length - 1)]?

/-- Commit a lexeme: report it if need be, tell the grammar, and start afresh
at its end. -/
def commit (s : Scanner σ S) (t : Tokenizer σ) (l : Lexeme) : Scanner σ S :=
  let log := s.log.map fun log => (remark s.grammar s.state l).elim log log.report
  let state := s.grammar.handle s.state l
  { s with log, state, tokenizer := s.grammar.setup state (t.rewind l.stop) }

/-- Commit lexemes from the unit at `next` on. The first unit stands at
`base`. -/
def scanFrom (s : Scanner σ S) (base : Nat) (units : List UInt32) (next : Nat) :
    Except Fault (List Lexeme × Scanner σ S) := do
  let (lexemes, t) ← search s.tokenizer (units.drop next)
  match s.choose lexemes with
  | none => return ([], { s with tokenizer := t })
  | some l =>
    if _forward : next < units.length ∧ next < l.stop - base then
      let (committed, s) ← (s.commit t l).scanFrom base units (l.stop - base)
      return (l :: committed, s)
    else .error (.stalled next)
termination_by units.length - next
decreasing_by omega

/-- **Scan a stream of units** that starts where the tokenizer stands. -/
def scanUnits (s : Scanner σ S) (units : List UInt32) :
    Except Fault (List Lexeme × Scanner σ S) :=
  s.scanFrom s.tokenizer.position units 0

/-- Scan a text in the encoding of the tokenizer. -/
def scan (s : Scanner σ S) (source : String) : Except Fault (List Lexeme × Scanner σ S) :=
  s.scanUnits (s.tokenizer.encoding.units source)

end Scanner

end Lexing
