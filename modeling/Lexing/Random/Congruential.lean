import Lexing.Random.Draws

/-!
# The congruential sequence

States follow one another by an affine map modulo `2^64`; each state gives its
high half as a word. The state after `n` steps is reached by repeated
squaring of the map.
-/

namespace Lexing.Random

/-- The map `x ↦ factor · x + offset` on 64-bit words. -/
structure AffineMap where
  factor : UInt64
  offset : UInt64

namespace AffineMap

/-- Apply a map. -/
def apply (f : AffineMap) (x : UInt64) : UInt64 := f.factor * x + f.offset

/-- The map that applies `f` first and then `g`. -/
def andThen (f g : AffineMap) : AffineMap :=
  ⟨g.factor * f.factor, g.factor * f.offset + g.offset⟩

/-- The map that applies `f` a number of times; `bits` bounds the binary
length of that number. -/
def iterate (f : AffineMap) : (bits times : Nat) → AffineMap
  | 0, _ => ⟨1, 0⟩
  | bits + 1, times =>
    let half := (f.andThen f).iterate bits (times / 2)
    if times % 2 = 1 then f.andThen half else half

end AffineMap

/-- One step of the sequence. -/
def congruentialStep : AffineMap := ⟨6364136223846793005, 1442695040888963407⟩

/-- The sequence that starts from a state. -/
def congruential (seed : UInt64) : Draws :=
  { word := fun n =>
      ((congruentialStep.iterate 64 (n + 1)).apply seed >>> 32).toUInt32 }

end Lexing.Random
