import Lexing.Charset.Category

/-!
# Encodings of a source text

A source arrives as a stream of code units. The encoding says how units group
into glyphs, one glyph per character: the *lead* unit of a glyph announces how
many units the glyph has, and the units after it announce none. Offsets count
units of the encoding; the characters that tokens see do not depend on it.
-/

namespace Lexing

/-- How a character is cut into code units. -/
inductive Encoding where
  /-- bytes of UTF-8 -/
  | utf8
  /-- UTF-16 code units -/
  | utf16
  /-- one unit per character -/
  | utf32
  /-- one unit per character, substituted beforehand -/
  | ascii
  deriving DecidableEq, Inhabited

namespace Encoding

/-- Every encoding. -/
def all : List Encoding := [utf8, utf16, utf32, ascii]

/-- The written name of an encoding. -/
def name : Encoding → String
  | utf8 => "utf8"
  | utf16 => "utf16"
  | utf32 => "utf32"
  | ascii => "ascii"

/-- The name of an encoding in listings. -/
def heading : Encoding → String
  | utf8 => "Utf8"
  | utf16 => "Utf16"
  | utf32 => "Utf32"
  | ascii => "Ascii"

/-- The encoding with a given name. -/
def ofName? (s : String) : Option Encoding := all.find? (·.name == s)

/-- **The length a lead unit announces**: how many units its glyph has, or 0
for a unit that leads no glyph. -/
def glyphUnits (e : Encoding) (u : UInt32) : Nat :=
  match e with
  | utf8 =>
    if u < 0x80 then 1
    else if u < 0xc0 then 0
    else if u < 0xe0 then 2
    else if u < 0xf0 then 3
    else if u < 0xf8 then 4
    else 0
  | utf16 =>
    if 0xd800 ≤ u ∧ u < 0xdc00 then 2
    else if 0xdc00 ≤ u ∧ u < 0xe000 then 0
    else 1
  | utf32 | ascii => 1

/-- Whether a unit continues a glyph that an earlier unit began. -/
def isContinuation (e : Encoding) (u : UInt32) : Bool := e.glyphUnits u == 0

/-- The one or two UTF-16 units of a character. -/
def utf16Units (c : Char) : List UInt32 :=
  if c.toNat < 0x10000 then [c.val]
  else
    let v := c.toNat - 0x10000
    [(0xd800 + v / 0x400).toUInt32, (0xdc00 + v % 0x400).toUInt32]

/-- The units of one character. -/
def encodeChar (e : Encoding) (c : Char) : List UInt32 :=
  match e with
  | utf8 => (String.utf8EncodeChar c).map UInt8.toUInt32
  | utf16 => utf16Units c
  | utf32 => [c.val]
  | ascii => [(toAscii c).val]

/-- How many units a character takes. -/
def unitLen (e : Encoding) (c : Char) : Nat :=
  match e with
  | utf8 => c.utf8Size
  | utf16 => if c.toNat < 0x10000 then 1 else 2
  | utf32 | ascii => 1

theorem length_encodeChar (e : Encoding) (c : Char) :
    (e.encodeChar c).length = e.unitLen c := by
  cases e with
  | utf8 => simp [encodeChar, unitLen]
  | utf16 =>
    simp only [encodeChar, unitLen, utf16Units]
    split <;> rfl
  | utf32 => rfl
  | ascii => rfl

/-- The units of a whole text. -/
def units (e : Encoding) (source : String) : List UInt32 :=
  match e with
  | utf8 => source.toByteArray.data.toList.map UInt8.toUInt32
  | utf16 => source.toList.flatMap utf16Units
  | utf32 => source.toList.map Char.val
  | ascii => source.toList.map fun c => (toAscii c).val

end Encoding

/-- The character tokens see for the glyph that a unit leads: an ASCII unit is
the character itself, any other becomes the substitute. -/
def leadToChar (u : UInt32) : Char :=
  if u < 0x80 then Char.ofNat u.toNat else substitute

end Lexing
