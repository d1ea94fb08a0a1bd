import Lexing.Proofs.Token.Run
import Lexing.Proofs.Tokenizer.Signature

/-!
# Finishing candidates

A bucket fits a signature if it starts at one of its characters and every
fallback of its candidates is a complete lexeme inside it. Then finishing a
candidate never fails, and what it gives can be told without the checks on the
way (`finish_end`, `finish_snoc`): nothing, or one lexeme from the start of
the bucket to the next character behind the settled length.
-/

namespace Lexing

variable {σ : Type}

theorem Lexeme.make_eq {start stop lineStart : Nat} (hstop : start ≤ stop)
    (hline : lineStart ≤ start) (line : Nat) (text : List Char) (value : Option Value)
    (token : Option TokenTag) :
    make start stop line lineStart text value token
      = .ok ⟨start, stop, line, start - lineStart, text, value, token⟩ := by
  rw [make, if_neg (Nat.not_lt.2 hstop), if_neg (Nat.not_lt.2 hline)]

namespace Bucket

variable {b : Bucket σ} {s : Signature} {x : Candidate σ} {floor stop here n : Nat}

/-- The characters of a signature that a bucket has seen. -/
def text (b : Bucket σ) (s : Signature) : List Char := s.text.drop b.key

/-- The lexeme of a candidate that has settled for a length and a state. The
character that is read next, or the end, stands at `stop`. -/
def lexeme (b : Bucket σ) (s : Signature) (stop : Nat) (x : Candidate σ) (n : Nat) (st : σ) :
    Lexeme where
  start := b.start
  stop := s.boundary stop (b.key + n)
  line := b.line
  lineOffset := b.start - b.lineStart
  text := (b.text s).take n
  value := x.token.decode st ((b.text s).take n)
  token := some x.token.tag

/-- What a finished candidate gives. -/
def yield (b : Bucket σ) (s : Signature) (stop : Nat) (x : Candidate σ) : List Ready :=
  ((x.settled (b.text s)).map fun (n, st) => ⟨b.lexeme s stop x n st, some x.rank⟩).toList

theorem mem_yield {r : Ready} :
    r ∈ b.yield s stop x ↔ ∃ n st, x.settled (b.text s) = some (n, st) ∧
      r = ⟨b.lexeme s stop x n st, some x.rank⟩ := by
  simp only [yield, Option.mem_toList, Option.map_eq_some_iff, Prod.exists,
    eq_comm (b := r)]

/-- **A bucket fits a signature.** -/
structure Fits (b : Bucket σ) (s : Signature) : Prop where
  key_lt : b.key < s.length
  start_eq : ∀ stop, s.boundary stop b.key = b.start
  lineStart_le : b.lineStart ≤ b.start
  fallback : ∀ x ∈ b.live, ∀ n st, x.fallback = some (n, st) →
    0 < n ∧ b.key + n ≤ s.length ∧ x.token.isValid st ((b.text s).take n) = true

theorem length_text (b : Bucket σ) (s : Signature) : (b.text s).length = s.length - b.key := by
  rw [text, List.length_drop, Signature.length_text]

theorem text_append (h : b.key ≤ s.length) (u : Signature) :
    b.text (s ++ u) = b.text s ++ u.text := by
  rw [text, Signature.text_append, List.drop_append_of_le_length (by simpa using h)]
  rfl

theorem take_text_append (h : b.key + n ≤ s.length) (u : Signature) :
    (b.text (s ++ u)).take n = (b.text s).take n := by
  rw [text_append (by omega), List.take_append_of_le_length]
  rw [length_text]
  omega

/-- A bucket fits a signature that has grown. -/
theorem Fits.append (h : b.Fits s) (u : Signature) : b.Fits (s ++ u) where
  key_lt := by
    have := h.key_lt
    rw [List.length_append]
    omega
  start_eq stop := by rw [Signature.boundary_append_left s u stop h.key_lt, h.start_eq]
  lineStart_le := h.lineStart_le
  fallback x hx n st hf := by
    obtain ⟨hn, hle, hvalid⟩ := h.fallback x hx n st hf
    refine ⟨hn, ?_, ?_⟩
    · rw [List.length_append]
      omega
    · rw [take_text_append hle]
      exact hvalid

/-- The candidates of a bucket may be exchanged for some whose fallbacks are
in order. -/
theorem Fits.withLive (h : b.Fits s) {live : List (Candidate σ)}
    (hlive : ∀ x ∈ live, ∀ n st, x.fallback = some (n, st) →
      0 < n ∧ b.key + n ≤ s.length ∧ x.token.isValid st ((b.text s).take n) = true) :
    Fits { b with live } s :=
  ⟨h.key_lt, h.start_eq, h.lineStart_le, hlive⟩

/-- A candidate settles for a complete lexeme of at least one character. -/
theorem Fits.settled (h : b.Fits s) (hx : x ∈ b.live) {st : σ}
    (hs : x.settled (b.text s) = some (n, st)) :
    0 < n ∧ b.key + n ≤ s.length ∧ x.token.isValid st ((b.text s).take n) = true := by
  have hkey := h.key_lt
  rw [Candidate.settled] at hs
  split at hs
  next hvalid =>
    obtain ⟨rfl, rfl⟩ := Prod.mk.inj (Option.some.inj hs)
    rw [List.take_length, length_text]
    exact ⟨by omega, by omega, hvalid⟩
  next => exact h.fallback x hx n st hs

/-! ## Finishing -/

/-- The lexeme of a bucket that fits is not empty. -/
theorem Fits.start_lt_boundary (h : b.Fits s) (hs : s.Within floor stop) (hn : 0 < n) :
    b.start < s.boundary stop (b.key + n) := by
  rw [← h.start_eq stop]
  exact hs.boundary_lt h.key_lt (Nat.lt_add_of_pos_right hn)

theorem Fits.floor_le_start (h : b.Fits s) (hs : s.Within floor stop) : floor ≤ b.start := by
  rw [← h.start_eq stop]
  exact hs.floor_le_boundary h.key_lt

/-- Finishing succeeds if the signature that is asked shows the characters
and the end of the settled lexeme. -/
theorem Fits.finish_eq (h : b.Fits s) (hw : s.Within floor here) (hx : x ∈ b.live)
    {u : Signature} {stop : Option Nat}
    (hslice : ∀ n, b.key + n ≤ s.length → u.slice b.key n = .ok ((b.text s).take n))
    (hstop : ∀ n, b.key + n ≤ s.length →
      u.offsetAt stop (b.key + n) = .ok (s.boundary here (b.key + n))) :
    b.finish u stop (b.text s) x = .ok (b.yield s here x) := by
  rw [finish, yield]
  cases hs : x.settled (b.text s) with
  | none => rfl
  | some p =>
    obtain ⟨n, st⟩ := p
    obtain ⟨hn, hle, hvalid⟩ := h.settled hx hs
    have hmake := Lexeme.make_eq (Nat.le_of_lt (h.start_lt_boundary hw hn)) h.lineStart_le b.line
    simp only [emit, hslice n hle, hstop n hle, bind, Except.bind, Token.decode?_eq hvalid, hmake]
    rfl

/-- **At the end of a stream**, finishing gives what the candidate yields. -/
theorem Fits.finish_end (h : b.Fits s) (hw : s.Within floor stop) (hx : x ∈ b.live) :
    b.finish s (some stop) (b.text s) x = .ok (b.yield s stop x) :=
  h.finish_eq hw hx (fun _ hn => Signature.slice_eq hn) fun _ _ => Signature.offsetAt_some ..

/-- **Before a character**, which is in the signature already, too. -/
theorem Fits.finish_snoc (h : b.Fits s) (hw : s.Within floor here) (c : Char)
    (hx : x ∈ b.live) :
    b.finish (s ++ [(c, here)]) none (b.text s) x = .ok (b.yield s here x) := by
  refine h.finish_eq hw hx (fun n hn => ?_) fun _ hn => Signature.offsetAt_none_snoc s c here hn
  rw [← take_text_append hn [(c, here)]]
  refine Signature.slice_eq ?_
  rw [List.length_append]
  omega

end Bucket

end Lexing
