import Lexing.Charset.Encoding
import Lexing.Token

/-!
# Reading one lexeme

Run a single token over the beginning of a text, without a tokenizer. The
answer is the longest complete lexeme the text begins with, even if the token
could go on for a while behind it. If there is none, the answer is an
unrecognized lexeme of all the characters the token took.
-/

namespace Lexing

/-- A match on its way through a text: what has been accepted, where it ends,
and the last complete lexeme with its length, end and state. -/
structure Reading (σ : Type) where
  state : σ
  text : List Char
  stop : Nat
  best : Option (Nat × Nat × σ)

namespace Reading

variable {σ : Type}

/-- Remember the text as a lexeme if it is complete. -/
def note (token : Token σ) (r : Reading σ) : Reading σ :=
  if token.isValid r.state r.text then { r with best := some (r.text.length, r.stop, r.state) }
  else r

/-- A match before its first character. -/
def start (token : Token σ) (reserved : Option Reserved) : Reading σ :=
  note token ⟨token.fresh reserved, [], 0, none⟩

/-- Accept characters as long as the token takes them. -/
def run (token : Token σ) (encoding : Encoding) (r : Reading σ) : List Char → Reading σ
  | [] => r
  | c :: rest =>
    match token.advance r.state r.text (toAscii c) with
    | none => r
    | some s =>
      run token encoding
        (note token { r with
          state := s
          text := r.text ++ [toAscii c]
          stop := r.stop + encoding.unitLen c })
        rest

/-- The lexeme that a match has come to. -/
def lexeme (token : Token σ) (r : Reading σ) : Except Fault Lexeme :=
  match r.best with
  | none => .ok ⟨0, r.stop, 1, 0, r.text, none, none⟩
  | some (length, stop, s) => do
    let text := r.text.take length
    let value ← token.decode? s text
    return ⟨0, stop, 1, 0, text, value, some token.tag⟩

end Reading

variable {σ : Type}

/-- **The longest lexeme a text begins with.** -/
def extract (token : Token σ) (source : List Char) (reserved : Option Reserved := none)
    (encoding : Encoding := .utf8) : Except Fault Lexeme :=
  ((Reading.start token reserved).run token encoding source).lexeme token

end Lexing
