import Lexing.Charset.Category
import Lexing.Text.Quoted

/-!
# Policies: what the tokenizer does with a character

Each ASCII character has a policy, a set of four flags; the characters outside
ASCII share the policy of the substitute that stands for them. A policy without
flags passes the character on to the tokens.
-/

namespace Lexing

/-- One flag, as a configuration names it. -/
inductive PolicyFlag where
  | trim
  | disallow
  | ignore
  | terminate
  deriving DecidableEq

namespace PolicyFlag

/-- Every flag, in the order in which they are listed. -/
def all : List PolicyFlag := [trim, disallow, ignore, terminate]

/-- The written name of a flag. -/
def name : PolicyFlag → String
  | trim => "trim"
  | disallow => "disallow"
  | ignore => "ignore"
  | terminate => "terminate"

/-- The name of a flag in listings of policies. -/
def heading : PolicyFlag → String
  | trim => "TRIM"
  | disallow => "DISALLOW"
  | ignore => "IGNORE"
  | terminate => "TERMINATE"

/-- The flag with a given name. -/
def ofName? (s : String) : Option PolicyFlag := all.find? (·.name == s)

/-- The number that stands for a flag in a sum of flags. -/
def bit : PolicyFlag → Nat
  | trim => 1
  | disallow => 2
  | ignore => 4
  | terminate => 8

end PolicyFlag

/-- A set of flags. -/
structure Policy where
  /-- drop the character while no candidate is active -/
  trim : Bool := false
  /-- report the character as an unrecognized lexeme -/
  disallow : Bool := false
  /-- drop the character always -/
  ignore : Bool := false
  /-- end every active candidate without advancing it -/
  terminate : Bool := false
  deriving DecidableEq

namespace Policy

/-- The policy without flags. -/
def pass : Policy := {}

/-- Whether a flag is set. -/
def has (p : Policy) : PolicyFlag → Bool
  | .trim => p.trim
  | .disallow => p.disallow
  | .ignore => p.ignore
  | .terminate => p.terminate

/-- The policy with one flag. -/
def single : PolicyFlag → Policy
  | .trim => { trim := true }
  | .disallow => { disallow := true }
  | .ignore => { ignore := true }
  | .terminate => { terminate := true }

/-- The flags of either policy. -/
def union (p q : Policy) : Policy :=
  ⟨p.trim || q.trim, p.disallow || q.disallow, p.ignore || q.ignore,
   p.terminate || q.terminate⟩

/-- The policy with the listed flags, which may repeat. -/
def ofFlags (flags : List PolicyFlag) : Policy :=
  flags.foldl (fun p flag => p.union (single flag)) pass

/-- The flags that are set. -/
def flags (p : Policy) : List PolicyFlag := PolicyFlag.all.filter p.has

/-- Whether no flag is set. -/
def isPass (p : Policy) : Bool := p.flags.isEmpty

/-- Whether every flag of a policy is set; a policy without flags is contained
in none. -/
def contains (p other : Policy) : Bool := !other.isPass && other.flags.all p.has

/-- The policy as a sum of its flags. -/
def bits (p : Policy) : Nat := p.flags.foldr (fun flag n => flag.bit + n) 0

/-- The listed flags, as in `TRIM | TERMINATE`. -/
def render (p : Policy) : String :=
  if p.isPass then "PASS" else " | ".intercalate (p.flags.map PolicyFlag.heading)

end Policy

/-- The policies of the 128 ASCII characters. -/
structure PolicyTable where
  entries : Vector Policy 128
  deriving DecidableEq

namespace PolicyTable

/-- The table that passes every character. -/
def passAll : PolicyTable := ⟨Vector.replicate 128 Policy.pass⟩

/-- The place of a character in a table: its own code, or that of the
substitute. -/
def index (c : Char) : Fin 128 :=
  if h : c.toNat < 128 then ⟨c.toNat, h⟩ else ⟨0x1a, by decide⟩

/-- The policy of a character. -/
def get (t : PolicyTable) (c : Char) : Policy := t.entries[index c]

@[simp] theorem get_passAll (c : Char) : passAll.get c = .pass := by
  simp [get, passAll]

/-- Replace the policy of a character. -/
def set (t : PolicyTable) (c : Char) (p : Policy) : PolicyTable :=
  ⟨t.entries.set (index c).val p (index c).isLt⟩

theorem get_set (t : PolicyTable) (c d : Char) (p : Policy) :
    (t.set c p).get d = if index c = index d then p else t.get d := by
  simp [get, set, Vector.getElem_set, Fin.ext_iff]

/-- **Replace the policy of a category**, of each of its members. What is not
ASCII arrives as the substitute, so `notAscii` addresses that one. -/
def setCategory (t : PolicyTable) (k : Category) (p : Policy) : PolicyTable :=
  match k with
  | .notAscii => t.set substitute p
  | k => k.members.foldl (fun t c => t.set c p) t

/-- The usual table: blanks and line breaks are trimmed, all else passes. -/
def standard : PolicyTable :=
  (passAll.setCategory .whitespace (.single .trim)).setCategory .newline (.single .trim)

/-- The characters with a policy other than passing, in code order. -/
def listed (t : PolicyTable) : List (Char × Policy) :=
  (Category.asciiChars.map fun c => (c, t.get c)).filter (!·.2.isPass)

/-- A listing of the table, as in `{' ': TRIM}`. -/
def render (t : PolicyTable) : String :=
  "\x7b" ++ ", ".intercalate (t.listed.map fun (c, p) => s!"{Text.quotedChar c}: {p.render}")
    ++ "\x7d"

end PolicyTable

end Lexing
