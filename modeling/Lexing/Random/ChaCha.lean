import Lexing.Random.Draws

/-!
# The ChaCha sequence

The words of the ChaCha stream cipher with twelve rounds. A block of sixteen
words is computed from a key of eight words and the number of the block, so
any word of the sequence can be had without those before it. The key itself is
expanded from a 64-bit seed.
-/

namespace Lexing.Random

/-- Sixteen words. -/
abbrev Block := Vector UInt32 16

/-- Rotate a word to the left. -/
def rotateLeft (x : UInt32) (n : UInt32) : UInt32 := (x <<< n) ||| (x >>> (32 - n))

/-- Mix four words of a block. -/
def quarterRound (s : Block) (a b c d : Fin 16) : Block :=
  let s := s.set a (s[a] + s[b])
  let s := s.set d (rotateLeft (s[d] ^^^ s[a]) 16)
  let s := s.set c (s[c] + s[d])
  let s := s.set b (rotateLeft (s[b] ^^^ s[c]) 12)
  let s := s.set a (s[a] + s[b])
  let s := s.set d (rotateLeft (s[d] ^^^ s[a]) 8)
  let s := s.set c (s[c] + s[d])
  s.set b (rotateLeft (s[b] ^^^ s[c]) 7)

/-- Mix the columns of a block, then its diagonals. -/
def doubleRound (s : Block) : Block :=
  let s := quarterRound s 0 4 8 12
  let s := quarterRound s 1 5 9 13
  let s := quarterRound s 2 6 10 14
  let s := quarterRound s 3 7 11 15
  let s := quarterRound s 0 5 10 15
  let s := quarterRound s 1 6 11 12
  let s := quarterRound s 2 7 8 13
  quarterRound s 3 4 9 14

/-- The block of a key and a block number: the constants, the key, the number
with its low half first, and two zeros. -/
def initialBlock (key : Vector UInt32 8) (number : UInt64) : Block :=
  #v[0x61707865, 0x3320646e, 0x79622d32, 0x6b206574,
     key[0], key[1], key[2], key[3], key[4], key[5], key[6], key[7],
     number.toUInt32, (number >>> 32).toUInt32, 0, 0]

/-- The words of one block of the sequence, with six double rounds. -/
def chachaBlock (key : Vector UInt32 8) (number : UInt64) : Block :=
  let start := initialBlock key number
  let mixed := Nat.repeat doubleRound 6 start
  Vector.zipWith (· + ·) mixed start

/-- The states of the key expansion, from a seed on. -/
def seedStates : Nat → UInt64 → List UInt64
  | 0, _ => []
  | n + 1, state =>
    let state := state * 6364136223846793005 + 11634580027462260723
    state :: seedStates n state

/-- The key word of a state: its bits are folded and then rotated to the right
by an amount that the state gives. -/
def seedWord (state : UInt64) : UInt32 :=
  let folded := (((state >>> 18) ^^^ state) >>> 27).toUInt32
  let amount := (state >>> 59).toUInt32
  (folded >>> amount) ||| (folded <<< ((32 - amount) % 32))

/-- The key of a seed. -/
def seedKey (seed : UInt64) : Vector UInt32 8 :=
  let words := (seedStates 8 seed).map seedWord
  Vector.ofFn fun i => words.getD i.val 0

/-- The sequence of a seed. -/
def chacha (seed : UInt64) : Draws :=
  let key := seedKey seed
  { word := fun n =>
      (chachaBlock key (n / 16).toUInt64).get ⟨n % 16, Nat.mod_lt _ (by decide)⟩ }

end Lexing.Random
