import Lexing.Proofs.Scanner.Prospect
import Lexing.Proofs.Scanner.Reference

/-!
# Extraction follows a candidate

Extraction and a candidate read the same characters: what extraction has noted
as the best lexeme is the fallback of the candidate, except that it also notes
an empty lexeme (`Follows`). So what extraction gives for a token at a place is
what a candidate of that token comes to there (`lexemeOf_of_begin`), and how
far it reads is how far the candidate reaches (`taken_of_begin`).
-/

namespace Lexing

variable {σ : Type}

/-- **A match follows a candidate** that has read `mid`. -/
structure Follows (r : Reading σ) (x : Candidate σ) (e : Encoding) (mid : List Char) : Prop where
  state : r.state = x.state
  text : r.text = mid.map toAscii
  stop : r.stop = e.size mid
  current : x.token.isValid x.state (mid.map toAscii) = true →
    x.fallback = some (mid.length, x.state)
  best_some : ∀ n st, x.fallback = some (n, st) → 0 < n ∧ n ≤ mid.length ∧
    x.token.isValid st ((mid.map toAscii).take n) = true ∧
      r.best = some (n, e.size (mid.take n), st)
  best_none : x.fallback = none → ∀ n stop st, r.best = some (n, stop, st) → n = 0 ∧ stop = 0

namespace Follows

variable {r : Reading σ} {x y : Candidate σ} {e : Encoding} {mid : List Char} {c : Char}

/-- Up to date, a candidate settles for its fallback. -/
theorem settled (h : Follows r x e mid) : x.settled (mid.map toAscii) = x.fallback := by
  rw [Candidate.settled]
  split
  next hvalid => rw [h.current hvalid, List.length_map]
  next => rfl

/-- The match and the candidate behind one more character, in state `st`. -/
theorem next (token : Token σ) (mid : List Char) (fallback : Option (Nat × σ)) {stop : Nat}
    {best : Option (Nat × Nat × σ)} (c : Char) (st : σ) (rank : Nat) (hstop : stop = e.size mid)
    (hsome : ∀ n st, fallback = some (n, st) → 0 < n ∧ n ≤ mid.length ∧
      token.isValid st ((mid.map toAscii).take n) = true ∧ best = some (n, e.size (mid.take n), st))
    (hnone : fallback = none → ∀ n stop st, best = some (n, stop, st) → n = 0 ∧ stop = 0) :
    Follows
      (Reading.note token ⟨st, mid.map toAscii ++ [toAscii c], stop + e.unitLen c, best⟩)
      ⟨token, st, rank,
        if token.isValid st (mid.map toAscii ++ [toAscii c]) then
          some ((mid.map toAscii).length + 1, st)
        else fallback⟩ e (mid ++ [c]) := by
  have htext : (mid ++ [c]).map toAscii = mid.map toAscii ++ [toAscii c] := List.map_append
  have hlength : (mid.map toAscii).length + 1 = (mid ++ [c]).length := by simp
  have hsize : stop + e.unitLen c = e.size (mid ++ [c]) := by simp [hstop]
  rw [Reading.note, hsize]
  by_cases hvalid : token.isValid st (mid.map toAscii ++ [toAscii c]) = true
  · simp only [if_pos hvalid, hlength]
    refine ⟨rfl, htext.symm, rfl, fun _ => rfl, fun n st' hn => ?_, fun hn => nomatch hn⟩
    obtain ⟨rfl, rfl⟩ := Prod.mk.inj (Option.some.inj hn)
    refine ⟨by simp, Nat.le_refl _, ?_, ?_⟩
    · rw [← List.map_take, List.take_length, htext]
      exact hvalid
    · rw [List.take_length, List.length_append, List.length_append, List.length_map]
      rfl
  · simp only [if_neg hvalid]
    refine ⟨rfl, htext.symm, rfl, fun h => absurd (htext ▸ h) hvalid, fun n st' hn => ?_, hnone⟩
    obtain ⟨hpos, hle, hvalid', hbest⟩ := hsome n st' hn
    refine ⟨hpos, by rw [List.length_append]; omega, ?_, ?_⟩
    · rw [htext, List.take_append_of_le_length (by rwa [List.length_map])]
      exact hvalid'
    · rw [List.take_append_of_le_length hle]
      exact hbest

/-- **A match follows a candidate to its end.** -/
theorem run (h : Follows r x e mid) (rest : List Char) :
    ∃ y front back, rest = front ++ back ∧ y.token = x.token ∧
      Follows (r.run x.token e rest) y e (mid ++ front) ∧
      x.outcome (mid.map toAscii) (rest.map toAscii) = y.fallback ∧
      x.reach (mid.map toAscii) (rest.map toAscii) = (mid ++ front).length := by
  induction rest generalizing r x mid with
  | nil =>
    refine ⟨x, [], [], rfl, rfl, by simpa [Reading.run] using h, h.settled, ?_⟩
    simp [Candidate.reach]
  | cons c rest ih =>
    rw [Reading.run, h.state, h.text]
    cases hadvance : x.token.advance x.state (mid.map toAscii) (toAscii c) with
    | none =>
      have hx : x.advance? (mid.map toAscii) (toAscii c) = none := by
        rw [Candidate.advance?, hadvance]
        rfl
      refine ⟨x, [], c :: rest, rfl, rfl, by simpa using h, ?_, ?_⟩
      · rw [List.map_cons, Candidate.outcome_cons_of_none hx, h.settled]
      · rw [List.map_cons, Candidate.reach_cons_of_none hx]
        simp
    | some st =>
      have hx : x.advance? (mid.map toAscii) (toAscii c) = some ⟨x.token, st, x.rank,
          if x.token.isValid st (mid.map toAscii ++ [toAscii c]) then
            some ((mid.map toAscii).length + 1, st)
          else x.fallback⟩ := by
        rw [Candidate.advance?, hadvance]
        rfl
      have hmid : (mid ++ [c]).map toAscii = mid.map toAscii ++ [toAscii c] := List.map_append
      -- both have noted the character; the rest is read behind it
      obtain ⟨y, front, back, rfl, hy, hfollows, houtcome, hreach⟩ :=
        ih (next x.token mid x.fallback c st x.rank h.stop h.best_some h.best_none)
      refine ⟨y, c :: front, back, rfl, hy, by simpa using hfollows, ?_, ?_⟩
      · rw [hmid] at houtcome
        rw [List.map_cons, Candidate.outcome_cons_of_some hx]
        exact houtcome
      · rw [hmid] at hreach
        rw [List.map_cons, Candidate.reach_cons_of_some hx, List.append_cons mid c front]
        exact hreach

end Follows

/-! ## A token at a place -/

section Place

variable {R : Reference σ} {token : Token σ} {c : Char} {rest : List Char} {rank : Nat}

/-- The lexeme of the first `n` characters of a text, as extraction has it. -/
def extracted (e : Encoding) (whole : List Char) (token : Token σ) (n : Nat) (st : σ) : Lexeme :=
  ⟨0, e.size (whole.take n), 1, 0, (whole.map toAscii).take n,
    token.decode st ((whole.map toAscii).take n), some token.tag⟩

/-- An empty lexeme counts as none. -/
theorem lexemeOf_eq_none {text : List Char}
    (h : ∀ n stop st, ((Reading.start token R.reserved).run token R.encoding text).best
      = some (n, stop, st) → n = 0 ∧ stop = 0) : R.lexemeOf text token = none := by
  rw [Reference.lexemeOf, extract, Reading.lexeme]
  cases hbest : ((Reading.start token R.reserved).run token R.encoding text).best with
  | none => rfl
  | some p =>
    obtain ⟨n, stop, st⟩ := p
    obtain ⟨rfl, rfl⟩ := h n stop st hbest
    simp only [bind, Except.bind]
    cases token.decode? st (List.take 0
      ((Reading.start token R.reserved).run token R.encoding text).text) <;> rfl

theorem lexemeOf_eq_some {text : List Char} {n : Nat} {st : σ}
    (hbest : ((Reading.start token R.reserved).run token R.encoding text).best
      = some (n, R.encoding.size (text.take n), st))
    (htext : ((Reading.start token R.reserved).run token R.encoding text).text.take n
      = (text.map toAscii).take n)
    (hvalid : token.isValid st ((text.map toAscii).take n) = true)
    (hpos : 0 < R.encoding.size (text.take n)) :
    R.lexemeOf text token = some (extracted R.encoding text token n st) := by
  rw [Reference.lexemeOf, extract, Reading.lexeme, hbest]
  simp only [htext, Token.decode?_eq hvalid, bind, Except.bind, pure, Except.pure]
  rw [if_pos]
  · rfl
  · simp [Lexeme.isRecognized, Lexeme.isEmpty, Nat.ne_of_lt hpos]

/-- Before the first character nothing but an empty lexeme is noted. -/
theorem best_start (token : Token σ) (reserved : Option Reserved) (n stop : Nat) (st : σ)
    (h : (Reading.start token reserved).best = some (n, stop, st)) : n = 0 ∧ stop = 0 := by
  rw [Reading.start, Reading.note] at h
  split at h
  · obtain ⟨rfl, rfl, -⟩ := by simpa using h
    exact ⟨rfl, rfl⟩
  · exact nomatch h

theorem start_eq (token : Token σ) (reserved : Option Reserved) :
    Reading.start token reserved
      = ⟨token.fresh reserved, [], 0, (Reading.start token reserved).best⟩ := by
  rw [Reading.start, Reading.note]
  split <;> rfl

/-- A token that refuses the first character gives nothing. -/
theorem of_refuse (rest : List Char)
    (h : Candidate.begin? token R.reserved rank (toAscii c) = none) :
    R.lexemeOf (c :: rest) token = none ∧ R.taken (c :: rest) token = 0 := by
  have hrefuse : token.advance (token.fresh R.reserved) [] (toAscii c) = none :=
    Option.map_eq_none_iff.1 h
  have hrun : (Reading.start token R.reserved).run token R.encoding (c :: rest)
      = Reading.start token R.reserved := by
    rw [start_eq, Reading.run]
    simp only [hrefuse]
  refine ⟨lexemeOf_eq_none fun n stop st hbest => ?_, ?_⟩
  · rw [hrun] at hbest
    exact best_start _ _ _ _ _ hbest
  · rw [Reference.taken, hrun, start_eq]
    rfl

theorem token_of_begin {x : Candidate σ} {reserved : Option Reserved}
    (h : Candidate.begin? token reserved rank c = some x) : x.token = token ∧ x.rank = rank := by
  obtain ⟨st, -, rfl⟩ := Option.map_eq_some_iff.1 h
  exact ⟨rfl, rfl⟩

/-- Extraction follows the candidate that begins with the first character. -/
theorem follows_of_begin (rest : List Char) {x : Candidate σ}
    (h : Candidate.begin? token R.reserved rank (toAscii c) = some x) :
    ∃ y front back, rest = front ++ back ∧ y.token = token ∧
      Follows ((Reading.start token R.reserved).run token R.encoding (c :: rest)) y R.encoding
        (c :: front) ∧
      x.outcome [toAscii c] (rest.map toAscii) = y.fallback ∧
      x.reach [toAscii c] (rest.map toAscii) = (c :: front).length := by
  obtain ⟨st, hadvance, rfl⟩ := Option.map_eq_some_iff.1 h
  have hfirst : (Reading.start token R.reserved).run token R.encoding (c :: rest)
      = (Reading.note token ⟨st, [toAscii c], 0 + R.encoding.unitLen c,
          (Reading.start token R.reserved).best⟩).run token R.encoding rest := by
    rw [start_eq, Reading.run]
    simp only [hadvance]
    rfl
  have hfollows : Follows
      (Reading.note token ⟨st, [toAscii c], 0 + R.encoding.unitLen c,
        (Reading.start token R.reserved).best⟩)
      ⟨token, st, rank, if token.isValid st [toAscii c] then some (1, st) else none⟩
      R.encoding [c] := by
    have hnext := Follows.next (e := R.encoding) token [] none c st rank rfl
      (fun _ _ h => nomatch h) fun _ => best_start token R.reserved
    exact hnext
  obtain ⟨y, front, back, hsplit, hy, hend, houtcome, hreach⟩ := hfollows.run rest
  rw [hfirst]
  exact ⟨y, front, back, hsplit, hy, hend, houtcome, hreach⟩

/-- **A token that takes the first character takes as much as its candidate
reaches.** -/
theorem taken_of_begin (rest : List Char) {x : Candidate σ}
    (h : Candidate.begin? token R.reserved rank (toAscii c) = some x) :
    R.taken (c :: rest) token = x.reach [toAscii c] (rest.map toAscii) := by
  obtain ⟨y, front, back, -, -, hfollows, -, hreach⟩ := follows_of_begin rest h
  rw [Reference.taken, hfollows.text, hreach, List.length_map]

/-- **It gives what its candidate comes to.** -/
theorem lexemeOf_of_begin (rest : List Char) {x : Candidate σ}
    (h : Candidate.begin? token R.reserved rank (toAscii c) = some x) :
    R.lexemeOf (c :: rest) token = (x.outcome [toAscii c] (rest.map toAscii)).map fun p =>
      extracted R.encoding (c :: rest) token p.1 p.2 := by
  obtain ⟨y, front, back, rfl, hy, hfollows, houtcome, -⟩ := follows_of_begin rest h
  rw [houtcome]
  cases hfallback : y.fallback with
  | none => exact lexemeOf_eq_none (hfollows.best_none hfallback)
  | some p =>
    obtain ⟨n, st⟩ := p
    obtain ⟨hpos, hle, hvalid, hbest⟩ := hfollows.best_some n st hfallback
    have hchars : (c :: (front ++ back)).take n = (c :: front).take n := by
      rw [← List.cons_append, List.take_append_of_le_length hle]
    have hseen : ((c :: (front ++ back)).map toAscii).take n
        = ((c :: front).map toAscii).take n := by
      rw [← List.map_take, ← List.map_take, hchars]
    refine lexemeOf_eq_some (by rw [hbest, hchars]) (by rw [hfollows.text, hseen]) ?_ ?_
    · rw [hseen, ← hy]
      exact hvalid
    · refine R.encoding.size_pos_of_ne_nil fun hnil => ?_
      rw [List.take_eq_nil_iff] at hnil
      obtain rfl | hnil := hnil
      · exact Nat.lt_irrefl 0 hpos
      · exact List.cons_ne_nil _ _ hnil

/-- What extraction gives are the first characters of the text. -/
theorem exists_extracted {l : Lexeme} (h : R.lexemeOf (c :: rest) token = some l) :
    ∃ n st, l = extracted R.encoding (c :: rest) token n st ∧ 0 < n ∧
      n ≤ (c :: rest).length := by
  cases hbegin : Candidate.begin? token R.reserved 0 (toAscii c) with
  | none =>
    rw [(of_refuse rest hbegin).1] at h
    exact nomatch h
  | some x =>
    obtain ⟨y, front, back, hsplit, -, hfollows, houtcome, -⟩ := follows_of_begin rest hbegin
    rw [lexemeOf_of_begin rest hbegin, houtcome] at h
    obtain ⟨⟨n, st⟩, hfallback, rfl⟩ := Option.map_eq_some_iff.1 h
    obtain ⟨hpos, hle, -⟩ := hfollows.best_some n st hfallback
    refine ⟨n, st, rfl, hpos, ?_⟩
    rw [hsplit]
    simp only [List.length_cons, List.length_append] at hle ⊢
    omega

end Place

end Lexing
