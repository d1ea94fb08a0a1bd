import Lexing.Token

/-!
# Tokens given by a state table

A machine lists its states and, for each state, which states may follow it,
the preferred ones first. An edge may be open or closed, depending on what has
been read; a character takes the first open edge into a state that the
character can enter. Entering a state may change what the machine remembers.

`Machine ι σ` has states of type `ι` and remembers a `σ`, which tells the
current state too.
-/

namespace Lexing

/-- A state table. -/
structure Machine (ι σ : Type) where
  name : String
  /-- every state -/
  states : List ι
  /-- the state in which a match is -/
  current : σ → ι
  /-- move a match to a state -/
  moveTo : ι → σ → σ
  /-- what is remembered before the first character -/
  fresh : Option Reserved → σ
  /-- the states that may follow one, preferred ones first -/
  targets : ι → List ι
  /-- whether the edge from one state to another is open -/
  allows : ι → ι → σ → Bool
  /-- the characters that enter a state -/
  entryChars : ι → σ → List Char
  /-- whether a character enters a state, behind a text -/
  canEnter : ι → σ → List Char → Char → Bool
  /-- what a character changes on entering a state -/
  onEnter : ι → σ → List Char → Char → σ
  /-- whether what has been read is a complete lexeme -/
  isValid : σ → Bool
  /-- the value of a complete lexeme -/
  decode : σ → List Char → Option Value
  /-- a text that reads as a given value -/
  written : Value → Option (List Char) := fun _ => none

namespace Machine

variable {ι σ : Type}

/-- The states that may be entered next. -/
def openTargets (m : Machine ι σ) (s : σ) : List ι :=
  (m.targets (m.current s)).filter fun target => m.allows (m.current s) target s

/-- Enter a state with a character. -/
def enter (m : Machine ι σ) (target : ι) (s : σ) (text : List Char) (c : Char) : σ :=
  m.moveTo target (m.onEnter target s text c)

/-- **Accept a character**: enter the first open target that it can enter. -/
def advance (m : Machine ι σ) (s : σ) (text : List Char) (c : Char) : Option σ :=
  ((m.openTargets s).find? fun target => m.canEnter target s text c).map
    fun target => m.enter target s text c

/-- Propose a character: draw an open target, then one of its characters. -/
def propose (m : Machine ι σ) (s : σ) (text : List Char) (draws : Draws) :
    Option (Char × σ) × Draws :=
  let (target, draws) := draws.choose (m.openTargets s)
  match target with
  | none => (none, draws)
  | some target =>
    let (c, draws) := draws.choose (m.entryChars target s)
    match c with
    | none => (none, draws)
    | some c =>
      (if m.canEnter target s text c then some (c, m.enter target s text c) else none, draws)

/-- The first edge, in the order of the states and their targets, that leads
to a state outside the table. -/
def strayEdge? [DecidableEq ι] (m : Machine ι σ) : Option (ι × ι) :=
  m.states.findSome? fun source =>
    ((m.targets source).find? (· ∉ m.states)).map fun target => (source, target)

/-- The token that runs a machine. -/
def toGenerator (m : Machine ι σ) (id : Nat) : Generator σ where
  tag := ⟨id, m.name⟩
  fresh := m.fresh
  advance := m.advance
  isValid s _ := m.isValid s
  decode := m.decode
  strict := true
  propose := m.propose
  written := m.written

/-- **The token of a machine whose edges stay inside its table.** -/
def toGenerator? [DecidableEq ι] (m : Machine ι σ) (stateName : ι → String) (id : Nat) :
    Except Fault (Generator σ) :=
  match m.strayEdge? with
  | some (source, target) => .error (.edgeLeavesTable (stateName source) (stateName target))
  | none => .ok (m.toGenerator id)

end Machine

end Lexing
