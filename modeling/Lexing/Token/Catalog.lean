import Lexing.Token.Fixed
import Lexing.Token.Keyname
import Lexing.Token.Numeric
import Lexing.Token.Table

/-!
# The tokens at hand

A scan mixes tokens of several kinds, so their states share one type here. A
specification says what a token is to recognize; building it gives the token
the number by which it is known.
-/

namespace Lexing

/-- The state of a match of any token at hand. -/
inductive MatchState where
  /-- of a fixed text, which needs no state -/
  | plain
  | keyname (reserved : Option Reserved)
  | numeric (progress : Numeric.Progress)
  | table (progress : TableProgress)
  deriving DecidableEq

namespace MatchState

/-- The state of a match of an identifier. -/
def keyname? : MatchState → Option (Option Reserved)
  | keyname reserved => some reserved
  | _ => none

/-- The state of a match of a numeric literal. -/
def numeric? : MatchState → Option Numeric.Progress
  | numeric progress => some progress
  | _ => none

/-- The state of a match of a state table. -/
def table? : MatchState → Option TableProgress
  | table progress => some progress
  | _ => none

/-- The state of a match of a fixed text. -/
def plain? : MatchState → Option Unit
  | plain => some ()
  | _ => none

/-- A set of reserved words, if there is one. -/
def renderReserved : Option Reserved → String
  | none => "None"
  | some r => "Some(\x7b" ++ ", ".intercalate (r.words.map Text.quoted) ++ "\x7d)"

/-- The state with its parts. -/
def render : MatchState → String
  | plain => "()"
  | keyname reserved =>
    "KeynameState \x7b " ++ s!"reserved: {renderReserved reserved}" ++ " \x7d"
  | numeric progress => progress.renderDetailed
  | table progress => Table.stateName progress.state

end MatchState

/-- What a token is to recognize. -/
inductive TokenSpec where
  /-- identifiers -/
  | keyname
  /-- numeric literals -/
  | numeric (config : NumericConfig)
  /-- one character -/
  | char (c : Char)
  /-- one text -/
  | fixed (content : List Char)
  /-- what a state table accepts -/
  | table (name : String) (rows : List TableRow)
  deriving DecidableEq

/-- Why a token cannot be built. -/
inductive BuildError where
  | separators (e : SeparatorError)
  | fault (f : Fault)
  deriving DecidableEq

namespace TokenSpec

/-- **Build a token** with a number. -/
def build (spec : TokenSpec) (id : Nat) : Except BuildError (Generator MatchState) :=
  match spec with
  | keyname => .ok ((Token.keyname id).lift .keyname MatchState.keyname?)
  | numeric config =>
    match Token.numeric? config id with
    | .ok g => .ok (g.lift .numeric MatchState.numeric?)
    | .error e => .error (.separators e)
  | char c => .ok ((Token.char id c).lift (fun _ => .plain) MatchState.plain?)
  | fixed content =>
    match Token.fixed id content with
    | .ok g => .ok (g.lift (fun _ => .plain) MatchState.plain?)
    | .error f => .error (.fault f)
  | table name rows =>
    match Token.table name rows id with
    | .ok g => .ok (g.lift .table MatchState.table?)
    | .error f => .error (.fault f)

/-- Build several tokens, numbered from `id` on. -/
def buildAll : List TokenSpec → (id : Nat) → Except BuildError (List (Generator MatchState))
  | [], _ => .ok []
  | spec :: rest, id => do
    let g ← spec.build id
    return g :: (← buildAll rest (id + 1))

/-- **The tokens of simple statements**: identifiers, numeric literals, and
each symbol that the literals do not use. -/
def statement (config : NumericConfig) : List TokenSpec :=
  keyname :: numeric config ::
    (Category.symbol.members.filter fun c => c != config.separator && c != config.fraction).map
      char

end TokenSpec

/-- A match with its token and its state. -/
def Token.renderMatch (t : Token MatchState) (s : MatchState) : String :=
  "Match \x7b " ++ s!"token: {Text.quoted t.name.toList}, state: {s.render}" ++ " \x7d"

end Lexing
