import Lexing.Token.Machine

/-!
# Tokens of plain state tables

The simplest machines: each state has a row that lists the states that may
follow, the characters that enter it, and whether a text that ends in it is
complete. A row may bound how often its state is entered. The value of a text
counts the entries into each state, one decimal digit a state.
-/

namespace Lexing

/-- One row of a state table. -/
structure TableRow where
  /-- the states that may follow, preferred ones first -/
  targets : List Nat := []
  /-- the characters that enter the state -/
  chars : List Char := []
  /-- whether a text may end in the state -/
  valid : Bool := false
  /-- how often the state may be entered -/
  limit : Option Nat := none
  deriving DecidableEq

/-- A match of a state table: the state, and the entries into each state. -/
structure TableProgress where
  state : Nat := 0
  entries : List Nat
  deriving DecidableEq

namespace Table

/-- The name of a state. -/
def stateName (n : Nat) : String := s!"S{n}"

/-- The row of a state; a state without one is a dead end. -/
def row (rows : List TableRow) (n : Nat) : TableRow := rows.getD n {}

/-- The number whose decimal digits are the listed ones, modulo `2^64`. -/
def digitsValue (digits : List Nat) : UInt64 :=
  digits.foldl (fun n d => n * 10 + d.toUInt64) 0

/-- The machine of a list of rows. A match starts in the state of the first. -/
def machine (name : String) (rows : List TableRow) : Machine Nat TableProgress where
  name := name
  states := List.range rows.length
  current s := s.state
  moveTo n s := { s with state := n }
  fresh _ := { entries := rows.map fun _ => 0 }
  targets n := (row rows n).targets
  allows _ target s := (row rows target).limit.all fun limit => s.entries.getD target 0 < limit
  entryChars n _ := (row rows n).chars
  canEnter n _ _ c := c ∈ (row rows n).chars
  onEnter n s _ _ := { s with entries := s.entries.modify n (· + 1) }
  isValid s := (row rows s.state).valid
  decode s _ := some (.u64 (digitsValue s.entries))

end Table

/-- **The token of a state table** whose edges stay inside it. -/
def Token.table (name : String) (rows : List TableRow) (id : Nat) :
    Except Fault (Generator TableProgress) :=
  (Table.machine name rows).toGenerator? Table.stateName id

end Lexing
