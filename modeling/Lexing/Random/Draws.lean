/-!
# Random draws

A source of randomness is an endless sequence of 32-bit words together with
how many of them have been used. Everything drawn is a function of that
sequence, so a statement about generated lexemes can quantify over all
sequences.

A draw below `n` multiplies a word by `n` and keeps the high half. To make
every answer equally likely, a word whose product has too large a low half is
refused and the next one is tried. Each word is refused with a chance of at
most one half; after `Draws.attempts` refusals the next word is taken as it
is, so that a draw always ends.
-/

namespace Lexing

/-- An endless sequence of random words, and how many are used up. -/
structure Draws where
  word : Nat → UInt32
  used : Nat := 0

namespace Draws

/-- The next word. -/
def next32 (d : Draws) : Nat × Draws :=
  ((d.word d.used).toNat, { d with used := d.used + 1 })

/-- The next two words as one number, the first word the low half. -/
def next64 (d : Draws) : Nat × Draws :=
  let (low, d) := d.next32
  let (high, d) := d.next32
  (low + high * 0x100000000, d)

/-- How many words a draw may refuse. -/
def attempts : Nat := 256

/-- The largest low half of a product that is not refused: `n` shifted to the
top of the word, less one. -/
def zone (width n : Nat) : Nat := n * Nat.pow 2 (width - 1 - Nat.log2 n) - 1

/-- Draw a number below `n` from words of a given width. -/
def belowWith (next : Draws → Nat × Draws) (width n : Nat) : Nat → Draws → Nat × Draws
  | 0, d =>
    let (v, d) := next d
    (v * n / Nat.pow 2 width, d)
  | fuel + 1, d =>
    let (v, d) := next d
    if v * n % Nat.pow 2 width ≤ zone width n then (v * n / Nat.pow 2 width, d)
    else belowWith next width n fuel d

/-- **A number below `n`**, for a positive `n` below `2 ^ 32`. -/
def below (d : Draws) (n : Nat) : Nat × Draws := belowWith next32 32 n attempts d

/-- A number from `low` up to and including `high`. -/
def between (d : Draws) (low high : Nat) : Nat × Draws :=
  let (v, d) := belowWith next64 64 (high - low + 1) attempts d
  (low + v, d)

/-- A member of a list; nothing is drawn from an empty one. -/
def choose {α : Type} (d : Draws) (items : List α) : Option α × Draws :=
  match items with
  | [] => (none, d)
  | _ :: _ =>
    let (i, d) := d.below items.length
    (items[i]?, d)

end Draws

end Lexing
