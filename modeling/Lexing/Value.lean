import Lexing.Json
import Lexing.Number.Layout

/-!
# Values of numeric lexemes

A lexeme decodes to a number of one of ten kinds: integers of four widths,
with or without sign, and floating-point numbers of two widths. The kind is
part of the value: the 8-bit one and the 16-bit one are different.
-/

namespace Lexing

/-- The kind of a value. -/
inductive ValueKind where
  | i8 | u8 | i16 | u16 | i32 | u32 | i64 | u64 | f32 | f64
  deriving DecidableEq

namespace ValueKind

/-- Every kind, by width. -/
def all : List ValueKind := [i8, u8, i16, u16, i32, u32, i64, u64, f32, f64]

/-- The written name of a kind. -/
def name : ValueKind → String
  | i8 => "i8"
  | u8 => "u8"
  | i16 => "i16"
  | u16 => "u16"
  | i32 => "i32"
  | u32 => "u32"
  | i64 => "i64"
  | u64 => "u64"
  | f32 => "f32"
  | f64 => "f64"

/-- The name of a kind as it heads a value in full detail. -/
def heading : ValueKind → String
  | i8 => "I8"
  | u8 => "U8"
  | i16 => "I16"
  | u16 => "U16"
  | i32 => "I32"
  | u32 => "U32"
  | i64 => "I64"
  | u64 => "U64"
  | f32 => "F32"
  | f64 => "F64"

/-- The kind with a given name. -/
def ofName? (s : String) : Option ValueKind := all.find? (·.name == s)

end ValueKind

/-- The number a lexeme stands for. Equality of values (`==`) compares
floating-point numbers as numbers: the two zeros are equal and what is no
number is not equal to itself. -/
inductive Value where
  | i8 (v : Int8)
  | u8 (v : UInt8)
  | i16 (v : Int16)
  | u16 (v : UInt16)
  | i32 (v : Int32)
  | u32 (v : UInt32)
  | i64 (v : Int64)
  | u64 (v : UInt64)
  | f32 (v : Float32)
  | f64 (v : Float)
  deriving BEq

namespace Value

/-- The kind of a value. -/
def kind : Value → ValueKind
  | i8 _ => .i8
  | u8 _ => .u8
  | i16 _ => .i16
  | u16 _ => .u16
  | i32 _ => .i32
  | u32 _ => .u32
  | i64 _ => .i64
  | u64 _ => .u64
  | f32 _ => .f32
  | f64 _ => .f64

/-- Whether a value is a floating-point number. -/
def isFloat : Value → Bool
  | f32 _ | f64 _ => true
  | _ => false

/-- The integer a value holds, for the eight integer kinds. -/
def toInt? : Value → Option Int
  | i8 v => some v.toInt
  | u8 v => some v.toNat
  | i16 v => some v.toInt
  | u16 v => some v.toNat
  | i32 v => some v.toInt
  | u32 v => some v.toNat
  | i64 v => some v.toInt
  | u64 v => some v.toNat
  | f32 _ | f64 _ => none

/-- The nearest 64-bit floating-point number. -/
def toDouble : Value → Float
  | f32 v => Number.doubleOfSingle v
  | f64 v => v
  | v => Number.doubleOfInt (v.toInt?.getD 0)

/-- A value with its floating-point digits laid out in a given form. -/
def renderWith (layout : Number.Layout) : Value → List Char
  | f32 v => Number.renderSingle layout v
  | f64 v => Number.renderDouble layout v
  | v => Number.integerDigits (v.toInt?.getD 0)

/-- The value as a reader wants to see it. -/
def render (v : Value) : List Char := v.renderWith .plain

/-- The value with its kind, as in `I8(-3)`. -/
def renderDetailed (v : Value) : List Char :=
  v.kind.heading.toList ++ '(' :: v.renderWith .detailed ++ [')']

/-- The value as a record of its kind and its number. -/
def toJson (v : Value) : Json :=
  .object [("type", .ofString v.kind.name), ("value", .number (v.renderWith .exchange))]

end Value

end Lexing
