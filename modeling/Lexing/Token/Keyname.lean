import Lexing.Charset.Category
import Lexing.Token

/-!
# Identifiers

A letter or an underscore, followed by letters, digits and underscores. A
reserved word is no identifier, though it may be the beginning of one.
-/

namespace Lexing.Token

/-- The characters that may stand at a place of an identifier, in the order in
which they are drawn. -/
def identChars (first : Bool) : List Char :=
  let letters (base : Char) := (List.range 26).map fun i => Char.ofNat (base.toNat + i)
  let digits := (List.range 10).map fun i => Char.ofNat ('0'.toNat + i)
  '_' :: letters 'a' ++ letters 'A' ++ (if first then [] else digits)

/-- The token of identifiers. Its state holds the reserved words. -/
def keyname (id : Nat) : Generator (Option Reserved) where
  tag := ⟨id, "keyname"⟩
  fresh reserved := reserved
  advance reserved text c :=
    if (if text = [] then isIdentStart c else isIdentContinue c) then some reserved else none
  isValid reserved text := text != [] && !reserved.any (·.contains text)
  decode _ _ := none
  propose reserved text draws :=
    let (c, draws) := draws.choose (identChars (text = []))
    (c.map fun c => (c, reserved), draws)

end Lexing.Token
