import Lexing.Extract
import Lexing.Proofs.Scanner.Characters

/-!
# Maximal munch, one token at a time

The scanner that one would write without a tokenizer: at each place every token
is run on its own over the rest of the text, and the longest lexeme wins. It
keeps no candidates and never looks back. Lines are left out, so its lexemes
stand on the line that extraction puts them on.
-/

namespace Lexing

variable {σ : Type}

/-- A lexeme without its line. -/
def Lexeme.withoutLine (l : Lexeme) : Lexeme := { l with line := 1, lineOffset := 0 }

/-- Some characters that no token made a lexeme of. -/
def Lexeme.stray (e : Encoding) (o : Nat) (text : List Char) : Lexeme :=
  ⟨o, o + e.size text, 1, 0, text.map toAscii, none, none⟩

/-- The first of the longest elements of a list, as a measure has it. -/
def longest {α : Type} (size : α → Nat) : List α → Option α
  | [] => none
  | a :: rest =>
    match longest size rest with
    | none => some a
    | some b => if size a < size b then some b else some a

/-- The tokens of a reference scanner, and what it knows besides. -/
structure Reference (σ : Type) where
  tokens : List (Token σ)
  reserved : Option Reserved
  encoding : Encoding
  policies : PolicyTable

namespace Reference

variable (R : Reference σ)

/-- What extraction gives for a token, unless that is unrecognized or empty. -/
def lexemeOf (text : List Char) (token : Token σ) : Option Lexeme :=
  match extract token text R.reserved R.encoding with
  | .ok l => if l.isRecognized && !l.isEmpty then some l else none
  | .error _ => none

/-- How many characters a token takes. -/
def taken (text : List Char) (token : Token σ) : Nat :=
  ((Reading.start token R.reserved).run token R.encoding text).text.length

/-- Whether some token takes a character as its first. -/
def begins (c : Char) : Bool :=
  R.tokens.any fun token => (token.advance (token.fresh R.reserved) [] (toAscii c)).isSome

/-- Whether a character is neither trimmed nor begins anything. -/
def strays (c : Char) : Bool := !(R.policies.get c).trim && !R.begins c

/-- How many characters stand before the next one that is trimmed or begins
something. -/
def runLength (text : List Char) : Nat := (text.takeWhile R.strays).length

/-- How many characters the token takes that takes most. -/
def furthest (text : List Char) : Nat := (R.tokens.map (R.taken text)).max?.getD 0

/-- **The lexeme at a place**, and how many characters it takes: the longest
one that extraction gives for any token; or else what the token that takes
most has taken; or else a run of characters that no token begins with. -/
def next (o : Nat) (text : List Char) : Lexeme × Nat :=
  match longest Lexeme.stop (R.tokens.filterMap (R.lexemeOf text)) with
  | some l => ({ l with start := o, stop := o + l.stop }, l.text.length)
  | none =>
    let n := if R.furthest text = 0 then R.runLength text else R.furthest text
    (.stray R.encoding o (text.take n), n)

/-- **The reference scanner.** -/
def scan (o : Nat) : List Char → List Lexeme
  | [] => []
  | c :: text =>
    if (R.policies.get c).trim then scan (o + R.encoding.unitLen c) text
    else
      let (l, n) := R.next o (c :: text)
      l :: scan l.stop (text.drop (n - 1))
termination_by text => text.length
decreasing_by
  · exact Nat.lt_succ_self _
  · rw [List.length_drop, List.length_cons]
    omega

/-! ## Fewer lexemes to choose from

What is committed may be chosen from fewer lexemes than extraction gives. Then
`f` tells what a token may contribute at a place, which is what extraction
gives for it, or nothing. -/

/-- The lexeme at a place, and how many characters it takes, if tokens
contribute what `f` tells. -/
def nextBy (f : List Char → Token σ → Option Lexeme) (o : Nat) (text : List Char) : Lexeme × Nat :=
  match longest Lexeme.stop (R.tokens.filterMap (f text)) with
  | some l => ({ l with start := o, stop := o + l.stop }, l.text.length)
  | none =>
    let n := if R.furthest text = 0 then R.runLength text else R.furthest text
    (.stray R.encoding o (text.take n), n)

/-- **The reference scanner that chooses from what `f` tells.** -/
def scanBy (f : List Char → Token σ → Option Lexeme) (o : Nat) : List Char → List Lexeme
  | [] => []
  | c :: text =>
    if (R.policies.get c).trim then scanBy f (o + R.encoding.unitLen c) text
    else
      let (l, n) := R.nextBy f o (c :: text)
      l :: scanBy f l.stop (text.drop (n - 1))
termination_by text => text.length
decreasing_by
  · exact Nat.lt_succ_self _
  · rw [List.length_drop, List.length_cons]
    omega

/-- The reference scanner chooses from all that extraction gives. -/
theorem scan_eq_scanBy (o : Nat) (text : List Char) :
    R.scan o text = R.scanBy R.lexemeOf o text := by
  fun_induction scan R o text with
  | case1 o => rw [scanBy]
  | case2 o c text htrim ih => rw [scanBy, if_pos htrim, ih]
  | case3 o c text htrim l n hnext ih =>
    have hnextBy : R.nextBy R.lexemeOf o (c :: text) = (l, n) := hnext
    rw [scanBy, if_neg htrim, hnextBy, ih]

end Reference

end Lexing
