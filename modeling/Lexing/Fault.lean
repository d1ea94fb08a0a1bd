import Lexing.Text.Quoted

/-!
# Faults

A fault is a demand that a caller has broken: there is no answer to give, and
the computation stops. Input is never at fault; what it can do wrong is
answered by unrecognized lexemes and by configuration errors.
-/

namespace Lexing

/-- A broken demand. -/
inductive Fault where
  /-- a text is decoded that its token does not hold valid -/
  | decodeInvalid (token : String) (text : List Char)
  /-- an edge of a state table leads out of the table -/
  | edgeLeavesTable (source target : String)
  /-- a fixed text has no character -/
  | emptyFixedText
  /-- a base has more digits than there are characters for them -/
  | baseTooLarge (base : Nat)
  /-- a line start does not lie behind the one before it -/
  | lineOutOfOrder (start : Nat)
  /-- an offset lies before the start of the line it is taken from -/
  | offsetBeforeLine (offset lineStart : Nat)
  /-- a span ends before it starts -/
  | reversedSpan (start stop : Nat)
  /-- a piece is taken out of a text that is too short for it -/
  | outOfRange (index size : Nat)
  /-- a scan has committed a lexeme without moving forward -/
  | stalled (position : Nat)
  deriving DecidableEq

namespace Fault

/-- The message of those faults that announce themselves. -/
def message : Fault → Option String
  | decodeInvalid token text =>
    some s!"{token}: decode called on invalid text {Text.quoted text}"
  | edgeLeavesTable source target =>
    some s!"transition {source} -> {target} leaves the state table"
  | emptyFixedText => some "string token needs at least one character"
  | _ => none

end Fault

end Lexing
