/-!
# Reserved words

Words that an identifier token must leave alone. They are shared by every
match of a scan.
-/

namespace Lexing

/-- A set of reserved words, in the order in which they were named first. -/
structure Reserved where
  words : List (List Char) := []
  deriving DecidableEq

namespace Reserved

/-- No word is reserved. -/
def none : Reserved := {}

/-- The set of the listed words, which may repeat. -/
def ofList (words : List (List Char)) : Reserved := ⟨words.reverse.eraseDups.reverse⟩

/-- Whether a word is reserved. -/
def contains (r : Reserved) (word : List Char) : Bool := r.words.contains word

/-- How many words are reserved. -/
def size (r : Reserved) : Nat := r.words.length

end Reserved

end Lexing
