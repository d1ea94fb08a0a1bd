import Lexing.Source.LineTable
import Lexing.Tokenizer.Candidate
import Lexing.Tokenizer.Config

/-!
# The tokenizer

A tokenizer runs many candidates at once over a stream of code units. Each unit
that leads a glyph brings one character. The character's policy comes first;
then every active candidate takes it or is finished; then, if none is active,
or in interleaved mode at any time, each token may begin a new candidate with
it. A character that begins no candidate joins the run of unmatched characters,
which is reported as one lexeme when something else begins.

Finished lexemes wait until they are taken, the longest first. `feed` and
`finish` tell whether a caller should take them now.
-/

namespace Lexing

/-- A run of characters that began no candidate. -/
structure UnmatchedRun where
  start : Nat
  stop : Nat
  line : Nat
  lineStart : Nat
  text : List Char
  deriving DecidableEq

/-- A tokenizer in the middle of a stream. -/
structure Tokenizer (σ : Type) where
  /-- the tokens that may begin, the preferred ones first -/
  tokens : List (Token σ)
  reserved : Option Reserved := none
  mode : Mode
  encoding : Encoding
  policies : PolicyTable
  /-- where the stream started -/
  offset : Nat
  /-- where the next unit stands -/
  position : Nat
  lines : LineTable
  /-- where the line breaks began that have just been read -/
  newlineRun : Option Nat := none
  signature : Signature := []
  active : List (Bucket σ) := []
  results : List Ready := []
  unmatched : Option UnmatchedRun := none

namespace Tokenizer

variable {σ : Type}

/-- A tokenizer at the start of its stream. -/
def new (tokens : List (Token σ)) (config : TokenizerConfig) : Tokenizer σ where
  tokens := tokens
  mode := config.mode
  encoding := config.encoding
  policies := config.policyTable
  offset := config.offset
  position := config.offset
  lines := .new config.line config.offset

/-- The number of active candidates. -/
def activeCount (t : Tokenizer σ) : Nat := (t.active.flatMap (·.live)).length

/-- Whether any candidate is active. -/
def hasActive (t : Tokenizer σ) : Bool := !t.active.isEmpty

/-! ## Line breaks

A run of line breaks ends one line, however many characters it has. The next
line starts at the first character behind the run. -/

/-- Note a character at an offset: a line break, or the start of a line. -/
def trackLines (t : Tokenizer σ) (here : Nat) (c : Char) : Except Fault (Tokenizer σ) :=
  if Category.of c = .newline then
    .ok { t with newlineRun := some (t.newlineRun.getD here) }
  else if t.newlineRun.isNone then .ok t
  else match t.lines.push? here with
    | some lines => .ok { t with lines, newlineRun := none }
    | none => .error (.lineOutOfOrder here)

/-! ## Unrecognized lexemes -/

/-- Add an unrecognized lexeme to those that wait. -/
def report (t : Tokenizer σ) (start stop line lineStart : Nat) (text : List Char) :
    Except Fault (Tokenizer σ) := do
  let lexeme ← Lexeme.make start stop line lineStart text none none
  return { t with results := t.results ++ [⟨lexeme, none⟩] }

/-- Report the unmatched run, if there is one, and tell whether there was. -/
def flushUnmatched (t : Tokenizer σ) : Except Fault (Bool × Tokenizer σ) :=
  match t.unmatched with
  | none => .ok (false, t)
  | some run => do
    let t := { t with unmatched := none }
    return (true, ← t.report run.start run.stop run.line run.lineStart run.text)

/-- Add a character to the unmatched run, or begin one with it. -/
def extendUnmatched (t : Tokenizer σ) (here width : Nat) (c : Char) : Tokenizer σ :=
  let run := match t.unmatched with
    | some run => { run with stop := here + width, text := run.text ++ [c] }
    | none => ⟨here, here + width, t.lines.current.1, t.lines.current.2, [c]⟩
  { t with unmatched := some run }

/-- Report the first characters of the signature, which no token wanted. -/
def flushSignature (t : Tokenizer σ) (length stop : Nat) : Except Fault (Tokenizer σ) := do
  let start ← t.signature.offsetAt none 0
  let text ← t.signature.slice 0 length
  let (line, lineStart) := t.lines.lookup start
  t.report start stop line lineStart text

/-! ## Advancing candidates -/

/-- What becomes of candidates in a step: those that go on, the lexemes of
those that are finished, and whether the step was broken off. -/
structure Stepped (α : Type) where
  kept : List α
  ready : List Ready
  stopped : Bool

/-- Offer a character to the candidates of a bucket, from the last to the
first. With `firstOnly` the step is broken off at the first lexeme, and the
candidates before it are left as they are. -/
def stepCandidates (b : Bucket σ) (signature : Signature) (text : List Char) (c : Char)
    (terminate firstOnly : Bool) :
    List (Candidate σ) → Except Fault (Stepped (Candidate σ))
  | [] => .ok ⟨[], [], false⟩
  | x :: rest => do
    let later ← stepCandidates b signature text c terminate firstOnly rest
    if later.stopped then return { later with kept := x :: later.kept }
    else
      match if terminate then none else x.advance? text c with
      | some x => return { later with kept := x :: later.kept }
      | none =>
        let ready ← b.finish signature none text x
        return ⟨later.kept, later.ready ++ ready, firstOnly && !ready.isEmpty⟩

/-- Offer a character to every bucket, the oldest first. `signature` holds the
character already. -/
def stepBuckets (signature : Signature) (c : Char) (terminate firstOnly : Bool) :
    List (Bucket σ) → Except Fault (Stepped (Bucket σ))
  | [] => .ok ⟨[], [], false⟩
  | b :: rest => do
    let text ← Signature.textFrom signature.dropLast b.key
    let own ← stepCandidates b signature text c terminate firstOnly b.live
    let b := { b with live := own.kept }
    if own.stopped then return ⟨b :: rest, own.ready, true⟩
    else
      let later ← stepBuckets signature c terminate firstOnly rest
      return ⟨b :: later.kept, own.ready ++ later.ready, later.stopped⟩

/-- Whether the waiting lexemes may be taken, as the mode sees it. -/
def resultsComplete (t : Tokenizer σ) : Bool :=
  match t.mode.select with
  | .first | .set => true
  | .all => t.active.isEmpty

/-- The candidates that begin with a character. -/
def beginning (t : Tokenizer σ) (c : Char) : List (Candidate σ) :=
  t.tokens.zipIdx.filterMap fun (token, rank) => Candidate.begin? token t.reserved rank c

/-- Begin candidates with the character at `here`, which is the last of the
signature. If an unmatched run stands before it, that one is reported first,
and the character will have to come again. -/
def start (t : Tokenizer σ) (here width : Nat) (c : Char) : Except Fault (Bool × Tokenizer σ) :=
  let started := t.beginning c
  if started.isEmpty then
    .ok (false, if t.active.isEmpty then t.extendUnmatched here width c else t)
  else do
    let (flushed, t) ← t.flushUnmatched
    if flushed then return (true, t)
    else
      let (line, lineStart) := t.lines.current
      let bucket := ⟨t.signature.length - 1, here, line, lineStart, started⟩
      return (false, { t with active := t.active ++ [bucket] })

/-! ## Feeding units -/

/-- Pass a character on to the candidates. `disallow` reports whatever is
finished, and `terminate` finishes every candidate. -/
def consume (t : Tokenizer σ) (here width : Nat) (c : Char) (disallow terminate : Bool) :
    Except Fault (Bool × Tokenizer σ) := do
  let before := t.signature.length
  let signature := t.signature ++ [(c, here)]
  let step ← stepBuckets signature c terminate (t.mode.select = .first) t.active
  let t := { t with
    signature
    active := step.kept.filter (!·.live.isEmpty)
    results := t.results ++ step.ready }
  if step.stopped then return (true, t)
  else if !t.results.isEmpty && (disallow || t.resultsComplete) then return (true, t)
  else if (disallow || !t.mode.interleaved) && t.active.isEmpty && t.results.isEmpty
      && 0 < before then
    return (true, ← t.flushSignature before here)
  else if t.mode.interleaved || t.active.isEmpty then t.start here width c
  else return (false, t)

/-- Treat a character as its policy says. -/
def feedChar (t : Tokenizer σ) (here width : Nat) (c : Char) :
    Except Fault (Bool × Tokenizer σ) :=
  let policy := t.policies.get c
  let idle := t.active.isEmpty
  if policy.trim && idle then t.flushUnmatched
  else if policy.disallow && idle then do
    let (flushed, t) ← t.flushUnmatched
    if flushed then return (true, t)
    else
      let (line, lineStart) := t.lines.current
      return (true, ← t.report here (here + width) line lineStart [c])
  else if policy.ignore then .ok (false, t)
  else t.consume here width c policy.disallow (policy.disallow || policy.terminate)

/-- Move over one unit. Without active candidates the signature is out of
date. -/
def step (t : Tokenizer σ) : Tokenizer σ :=
  { t with
    position := t.position + 1
    signature := if t.active.isEmpty then [] else t.signature }

/-- **Feed one unit**, and tell whether lexemes should be taken. A unit that
leads no glyph is passed over. -/
def feed (t : Tokenizer σ) (u : UInt32) : Except Fault (Bool × Tokenizer σ) :=
  let here := t.position
  let width := t.encoding.glyphUnits u
  if width = 0 then .ok (false, t.step)
  else do
    let c := leadToChar u
    let t ← t.step.trackLines here c
    t.feedChar here width c

/-- Feed several units, and tell whether any of them made lexemes ready. -/
def feedUnits (t : Tokenizer σ) : List UInt32 → Except Fault (Bool × Tokenizer σ)
  | [] => .ok (false, t)
  | u :: rest => do
    let (now, t) ← t.feed u
    let (later, t) ← t.feedUnits rest
    return (now || later, t)

/-- Feed the units of one character. -/
def feedCharacter (t : Tokenizer σ) (c : Char) : Except Fault (Bool × Tokenizer σ) :=
  t.feedUnits (t.encoding.encodeChar c)

/-! ## The end of the stream -/

/-- Finish the candidates of a bucket, from the last to the first. -/
def finishCandidates (b : Bucket σ) (signature : Signature) (stop : Nat) (text : List Char) :
    List (Candidate σ) → Except Fault (List Ready)
  | [] => .ok []
  | x :: rest => do
    let later ← finishCandidates b signature stop text rest
    return later ++ (← b.finish signature (some stop) text x)

/-- Finish every bucket, the oldest first. -/
def finishBuckets (signature : Signature) (stop : Nat) :
    List (Bucket σ) → Except Fault (List Ready)
  | [] => .ok []
  | b :: rest => do
    let text ← signature.textFrom b.key
    let own ← finishCandidates b signature stop text b.live
    return own ++ (← finishBuckets signature stop rest)

/-- **End the stream**: finish every candidate, report what is left, and tell
whether lexemes wait. -/
def finish (t : Tokenizer σ) : Except Fault (Bool × Tokenizer σ) := do
  let ready ← finishBuckets t.signature t.position t.active
  let hadActive := !t.active.isEmpty
  let t := { t with active := [], results := t.results ++ ready }
  let t ←
    if hadActive && t.results.isEmpty && !t.signature.isEmpty then
      t.flushSignature t.signature.length t.position
    else .ok t
  let (_, t) ← t.flushUnmatched
  return (!t.results.isEmpty, { t with signature := [] })

/-! ## Taking lexemes -/

/-- The order in which lexemes are taken: the longer first, then the earlier,
then the one whose token is preferred, and unrecognized ones last. -/
def takenBefore (a b : Ready) : Bool :=
  if a.lexeme.size ≠ b.lexeme.size then b.lexeme.size < a.lexeme.size
  else if a.lexeme.start ≠ b.lexeme.start then a.lexeme.start < b.lexeme.start
  else match a.rank, b.rank with
    | some i, some j => i ≤ j
    | some _, none => true
    | none, some _ => false
    | none, none => true

/-- **Take the waiting lexemes**, in order. -/
def take (t : Tokenizer σ) : List Lexeme × Tokenizer σ :=
  ((t.results.mergeSort takenBefore).map (·.lexeme), { t with results := [] })

/-! ## Moving within the stream -/

/-- Move to a position. Lines that start behind it are forgotten; candidates
are kept. -/
def seek (t : Tokenizer σ) (position : Nat) : Tokenizer σ :=
  { t with
    position
    lines := t.lines.truncateAfter position
    newlineRun := t.newlineRun.filter (· < position) }

/-- **Move to a position and start afresh there**, without candidates and
waiting lexemes. -/
def rewind (t : Tokenizer σ) (position : Nat) : Tokenizer σ :=
  { t.seek position with
    active := []
    results := []
    signature := []
    unmatched := none }

/-- The state of a tokenizer on one line. -/
def render (t : Tokenizer σ) : String :=
  let mode :=
    "Mode \x7b " ++ s!"select: {t.mode.select.heading}, interleaved: {t.mode.interleaved}"
      ++ " \x7d"
  "Tokenizer \x7b " ++ s!"tokens: {t.tokens.length}, mode: {mode}, "
    ++ s!"encoding: {t.encoding.heading}, position: {t.position}, "
    ++ s!"signature: {Text.quoted t.signature.text}, active: {t.activeCount}, "
    ++ s!"pending: {t.results.length}" ++ " \x7d"

end Tokenizer

end Lexing
