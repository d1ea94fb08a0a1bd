import Lexing.Token.Numeric.Config
import Lexing.Tokenizer.Config
import Lexing.Toml.Document
import Lexing.Toml.Printed

/-!
# Configurations and their documents

A configuration sets up the tokenizer and the numeric literals. It is read
from a TOML document, where everything that is left out keeps its usual
setting and unknown names mean nothing. Written as a document and read again,
a configuration stays the same.

Where a table is expected, an array may stand too; its items are then taken
for the settings in their order. A date counts as a table without settings.
-/

namespace Lexing

/-- A configuration. -/
structure LexConfig where
  tokenizer : TokenizerConfig := {}
  numeric : NumericConfig := {}
  deriving DecidableEq

/-- What can be wrong with a configuration. -/
inductive ConfigError where
  /-- the document cannot be read, or a setting has a value of a wrong kind -/
  | unreadable
  /-- the separators of numeric literals will not do -/
  | separators (e : SeparatorError)
  deriving DecidableEq

namespace LexConfig

/-! ## Reading -/

/-- The settings that a value gives, under the names that are expected. -/
def settings? (names : List String) : Toml → Option (String → Option Toml)
  | .table _ entries => some fun name => Toml.find? entries name.toList
  | .array items | .tables items => some fun name => (names.zip items).lookup name
  | .date => some fun _ => none
  | _ => none

/-- Whether a value holds nothing. -/
def isBare : Toml → Bool
  | .table _ [] | .array [] | .tables [] => true
  | _ => false

/-- The name that a value stands for: a text, or the only name of a table, of
which it says nothing more. -/
def choice? : Toml → Option String
  | .text s => some (String.ofList s)
  | .table _ [(name, v)] => if isBare v then some (String.ofList name) else none
  | _ => none

/-- A truth value. -/
def bool? : Toml → Option Bool
  | .boolean b => some b
  | _ => none

/-- A natural number up to a bound. -/
def nat? (bound : Nat) : Toml → Option Nat
  | .integer n => if 0 ≤ n ∧ n.toNat ≤ bound then some n.toNat else none
  | _ => none

/-- A text of one character. -/
def char? : Toml → Option Char
  | .text [c] => some c
  | _ => none

/-- The items of an array. -/
def list? : Toml → Option (List Toml)
  | .array items | .tables items => some items
  | _ => none

/-- A setting that may be left out. -/
def optional {α : Type} (settings : String → Option Toml) (name : String)
    (read : Toml → Option α) (usual : α) : Option α :=
  match settings name with
  | none => some usual
  | some v => read v

/-- A list of flags. -/
def flags? (v : Toml) : Option (List PolicyFlag) := do
  (← list? v).mapM fun item => do PolicyFlag.ofName? (← choice? item)

/-- A rule for a category. The category may not be left out. -/
def rule? (v : Toml) : Option PolicyRule := do
  let settings ← settings? ["category", "flags"] v
  let category ← Category.ofName? (← choice? (← settings "category"))
  let flags ← optional settings "flags" flags? []
  return ⟨category, flags⟩

/-- A list of rules. -/
def rules? (v : Toml) : Option (List PolicyRule) := do (← list? v).mapM rule?

/-- The largest line number. -/
def maxLine : Nat := 0xffffffff

/-- The largest offset that a document can hold. -/
def maxOffset : Nat := 0x7fffffffffffffff

/-- The setup of the tokenizer. -/
def tokenizer? (v : Toml) : Option TokenizerConfig := do
  let usual : TokenizerConfig := {}
  let settings ← settings?
    ["select", "interleaved", "offset", "line", "encoding", "policies"] v
  let select ←
    optional settings "select" (fun v => do Select.ofName? (← choice? v)) usual.select
  let interleaved ← optional settings "interleaved" bool? usual.interleaved
  let offset ← optional settings "offset" (nat? maxOffset) usual.offset
  let line ← optional settings "line" (nat? maxLine) usual.line
  let encoding ←
    optional settings "encoding" (fun v => do Encoding.ofName? (← choice? v)) usual.encoding
  let policies ← optional settings "policies" rules? usual.policies
  return ⟨select, interleaved, offset, line, encoding, policies⟩

/-- The form of numeric literals. -/
def numeric? (v : Toml) : Option NumericConfig := do
  let usual : NumericConfig := {}
  let settings ← settings? ["separator", "fraction", "default-float"] v
  let separator ← optional settings "separator" char? usual.separator
  let fraction ← optional settings "fraction" char? usual.fraction
  let defaultFloat ←
    optional settings "default-float" (fun v => do FloatWidth.ofName? (← choice? v))
      usual.defaultFloat
  return ⟨separator, fraction, defaultFloat⟩

/-- A whole configuration. -/
def ofToml? (v : Toml) : Option LexConfig := do
  let settings ← settings? ["tokenizer", "numeric"] v
  let tokenizer ← optional settings "tokenizer" tokenizer? {}
  let numeric ← optional settings "numeric" numeric? {}
  return ⟨tokenizer, numeric⟩

/-- **Read a configuration** from a document and check it. -/
def read (document : List Char) : Except ConfigError LexConfig :=
  match (Toml.document? document).bind ofToml? with
  | none => .error .unreadable
  | some config =>
    match config.numeric.validate with
    | .error e => .error (.separators e)
    | .ok () => .ok config

/-! ## Writing -/

/-- A rule under a header of its own. -/
def printRule (rule : PolicyRule) : List Char :=
  "\n[[tokenizer.policies]]\n".toList
    ++ Toml.printLine "category" (Toml.printText rule.category.name.toList)
    ++ Toml.printLine "flags" (Toml.printTexts (rule.flags.map (·.name.toList)))

/-- The setup of the tokenizer, its rules last. -/
def printTokenizer (config : TokenizerConfig) : List Char :=
  "[tokenizer]\n".toList
    ++ Toml.printLine "select" (Toml.printText config.select.name.toList)
    ++ Toml.printLine "interleaved" (Toml.printBool config.interleaved)
    ++ Toml.printLine "offset" (Toml.printNat config.offset)
    ++ Toml.printLine "line" (Toml.printNat config.line)
    ++ Toml.printLine "encoding" (Toml.printText config.encoding.name.toList)
    ++ (if config.policies = [] then Toml.printLine "policies" ['[', ']']
        else config.policies.flatMap printRule)

/-- The form of numeric literals. -/
def printNumeric (config : NumericConfig) : List Char :=
  "\n[numeric]\n".toList
    ++ Toml.printLine "separator" (Toml.printText [config.separator])
    ++ Toml.printLine "fraction" (Toml.printText [config.fraction])
    ++ Toml.printLine "default-float" (Toml.printText config.defaultFloat.name.toList)

/-- **Write a configuration** as a document. There is none for an offset that
a document cannot hold. -/
def print? (config : LexConfig) : Option (List Char) :=
  if config.tokenizer.offset ≤ maxOffset then
    some (printTokenizer config.tokenizer ++ printNumeric config.numeric)
  else none

end LexConfig

end Lexing
