import Lexing.Token.Numeric.Written

/-!
# Numeric literals as tokens

The state table of the literal grammar, run as a token. The configuration is
checked first, so that every numeric token has separators of its own.
-/

namespace Lexing.Numeric

/-- The state table of numeric literals. -/
def machine (config : NumericConfig) : Machine Stage Progress where
  name := "numeric"
  states := Stage.all
  current s := s.stage
  moveTo stage s := { s with stage }
  fresh _ := {}
  targets := Stage.targets
  allows := allows
  entryChars := entryChars config
  canEnter target s _ c := canEnter config target s c
  onEnter target s _ c := onEnter config target s c
  isValid s := s.valid
  decode s _ := some (decode config s)
  written := written config

end Lexing.Numeric

namespace Lexing.Token

/-- The token of numeric literals, for a configuration that has been
checked. -/
def numeric (config : NumericConfig) (id : Nat) : Generator Numeric.Progress :=
  (Numeric.machine config).toGenerator id

/-- **The token of numeric literals.** -/
def numeric? (config : NumericConfig) (id : Nat) :
    Except SeparatorError (Generator Numeric.Progress) := do
  config.validate
  return numeric config id

end Lexing.Token
