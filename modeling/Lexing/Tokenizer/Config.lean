import Lexing.Charset.Encoding
import Lexing.Policy

/-!
# How a tokenizer is set up

Which lexemes it reports and when, where its source starts, how the source is
encoded, and which characters it treats specially. Policies are given as rules
for categories, applied in order to a table that passes every character, so of
several rules that cover a character the last one counts.
-/

namespace Lexing

/-- When finished lexemes are reported. -/
inductive Select where
  /-- as soon as any candidate is finished -/
  | first
  /-- after a step in which a candidate was finished -/
  | set
  /-- once every active candidate is finished -/
  | all
  deriving DecidableEq

namespace Select

/-- The written name of a choice. -/
def name : Select → String
  | first => "return-first"
  | set => "return-set"
  | all => "return-all"

/-- The name of a choice in listings. -/
def heading : Select → String
  | first => "ReturnFirst"
  | set => "ReturnSet"
  | all => "ReturnAll"

/-- The choice with a given name. -/
def ofName? (s : String) : Option Select := [first, set, all].find? (·.name == s)

end Select

/-- When lexemes are reported, and whether candidates may start while others
are active. -/
structure Mode where
  select : Select := .all
  interleaved : Bool := false
  deriving DecidableEq

/-- The flags for the characters of one category. -/
structure PolicyRule where
  category : Category
  flags : List PolicyFlag := []
  deriving DecidableEq

/-- The setup of a tokenizer. -/
structure TokenizerConfig where
  select : Select := .all
  interleaved : Bool := false
  /-- the offset of the first unit -/
  offset : Nat := 0
  /-- the number of the first line -/
  line : Nat := 1
  encoding : Encoding := .utf8
  policies : List PolicyRule := [⟨.whitespace, [.trim]⟩, ⟨.newline, [.trim]⟩]
  deriving DecidableEq

namespace TokenizerConfig

/-- The mode of a setup. -/
def mode (c : TokenizerConfig) : Mode := ⟨c.select, c.interleaved⟩

/-- **The policies of a setup**: its rules, one after the other. -/
def policyTable (c : TokenizerConfig) : PolicyTable :=
  c.policies.foldl (fun t rule => t.setCategory rule.category (.ofFlags rule.flags)) .passAll

end TokenizerConfig

end Lexing
