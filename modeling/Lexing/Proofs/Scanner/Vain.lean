import Lexing.Proofs.Scanner.Choice

/-!
# What is left unrecognized

The reference scanner commits a lexeme without token where every token has
failed: a run of characters with which no token begins, or what a token has
taken without ever coming to a lexeme. If each of these characters has some
property, all characters of unrecognized lexemes have it
(`Reference.forall_mem_unrecognized`). Every character that is not trimmed lies
in the span of a lexeme, which has its image in the text if it is unrecognized
(`Reference.exists_span`).
-/

namespace Lexing

variable {σ : Type}

/-! ## Candidates without a lexeme -/

namespace Candidate

variable {x : Candidate σ} {text : List Char}

/-- A candidate that has passed through a lexeme comes to one. -/
theorem outcome_ne_none (h : x.fallback ≠ none) (text rest : List Char) :
    x.outcome text rest ≠ none := by
  have hsettled {y : Candidate σ} (hy : y.fallback ≠ none) (text : List Char) :
      y.settled text ≠ none := by
    rw [settled]
    split
    · exact Option.some_ne_none _
    · exact hy
  induction rest generalizing x text with
  | nil => exact hsettled h text
  | cons c rest ih =>
    cases hadvance : x.advance? text c with
    | none =>
      rw [outcome_cons_of_none hadvance]
      exact hsettled h text
    | some y =>
      rw [outcome_cons_of_some hadvance]
      refine ih ?_ _
      obtain ⟨st, -, rfl⟩ := Option.map_eq_some_iff.1 hadvance
      dsimp only
      split
      · exact Option.some_ne_none _
      · exact h

/-- **What a candidate takes in vain**: if each character either completes a
lexeme or has a property `Q`, which only depends on what is remembered, then a
candidate that comes to nothing has taken characters with `Q`. -/
theorem forall_mem_of_outcome_eq_none {P : σ → Prop} {Q : Char → Prop} {rest : List Char}
    (hstep : ∀ s text c s', P s → x.token.advance s text c = some s' →
      x.token.isValid s' (text ++ [c]) = true ∨ P s' ∧ Q c)
    (hx : P x.state) (hnone : x.outcome text rest = none) :
    ∀ c ∈ rest.take (x.reach text rest - text.length), Q c := by
  induction rest generalizing x text with
  | nil => exact fun c hc => nomatch List.take_nil ▸ hc
  | cons c rest ih =>
    cases hadvance : x.advance? text c with
    | none =>
      rw [reach_cons_of_none hadvance, Nat.sub_self]
      exact fun c hc => nomatch hc
    | some y =>
      rw [outcome_cons_of_some hadvance] at hnone
      rw [reach_cons_of_some hadvance]
      obtain ⟨s', hs', rfl⟩ := Option.map_eq_some_iff.1 hadvance
      have hvalid : x.token.isValid s' (text ++ [c]) = false := by
        refine (Bool.not_eq_true _).mp fun hvalid => ?_
        exact outcome_ne_none (by simp [hvalid]) _ _ hnone
      obtain htrue | ⟨hP, hQ⟩ := hstep _ _ _ _ hx hs'
      · exact Bool.noConfusion (htrue.symm.trans hvalid)
      · have hle := length_le_reach (⟨x.token, s', x.rank, if x.token.isValid s' (text ++ [c]) then
          some (text.length + 1, s') else x.fallback⟩ : Candidate σ) (text ++ [c]) rest
        have hlater := ih (x := ⟨x.token, s', x.rank, _⟩) hstep hP hnone
        rw [List.length_append, List.length_singleton] at hle hlater
        obtain ⟨n, hn⟩ := Nat.exists_eq_add_of_le hle
        rw [hn, Nat.add_sub_cancel_left] at hlater
        rw [hn, show text.length + 1 + n - text.length = n + 1 by omega, List.take_succ_cons]
        exact List.forall_mem_cons.2 ⟨hQ, hlater⟩

end Candidate

/-! ## Places of the reference scanner -/

namespace Reference

variable {R : Reference σ} {c : Char} {rest : List Char}

/-- A token whose first character is a lexeme has one. -/
theorem lexemeOf_ne_none {token : Token σ} {st : σ}
    (hadvance : token.advance (token.fresh R.reserved) [] (toAscii c) = some st)
    (hvalid : token.isValid st [toAscii c] = true) (rest : List Char) :
    R.lexemeOf (c :: rest) token ≠ none := by
  have hbegin : Candidate.begin? token R.reserved 0 (toAscii c)
      = some ⟨token, st, 0, some (1, st)⟩ := by
    rw [Candidate.begin?, hadvance, Option.map_some, if_pos hvalid]
  rw [lexemeOf_of_begin rest hbegin, ne_eq, Option.map_eq_none_iff]
  exact Candidate.outcome_ne_none (Option.some_ne_none _) _ _

/-- **Where lexemes come from**: from characters that are not trimmed. -/
theorem exists_place {o : Nat} {text : List Char} {l : Lexeme} (h : l ∈ R.scan o text) :
    ∃ o' c rest, (R.policies.get c).trim = false ∧ l = (R.next o' (c :: rest)).1 := by
  fun_induction scan R o text with
  | case1 o => exact (List.not_mem_nil h).elim
  | case2 o c text htrim ih => exact ih h
  | case3 o c text htrim l' n hnext ih =>
    obtain rfl | h := List.mem_cons.1 h
    · exact ⟨o, c, text, (Bool.not_eq_true _).mp htrim, by rw [hnext]⟩
    · exact ih h

/-- The next lexeme ends behind its characters, of which there is one at
least. -/
theorem next_stop (o : Nat) (rest : List Char) (htrim : (R.policies.get c).trim = false) :
    (R.next o (c :: rest)).1.stop
        = o + R.encoding.size ((c :: rest).take (R.next o (c :: rest)).2) ∧
      0 < (R.next o (c :: rest)).2 :=
  R.among_lexemeOf.nextBy_stop o rest htrim

/-- **Where characters go to**: a character that is not trimmed is one of those
that are taken at some place. -/
theorem exists_place_of_mem (o : Nat) {text front back : List Char}
    (hsplit : text = front ++ c :: back) (htrim : (R.policies.get c).trim = false) :
    ∃ before d rest, text = before ++ d :: rest ∧ (R.policies.get d).trim = false ∧
      (R.next (o + R.encoding.size before) (d :: rest)).1 ∈ R.scan o text ∧
      before.length ≤ front.length ∧
      front.length < before.length + (R.next (o + R.encoding.size before) (d :: rest)).2 := by
  fun_induction scan R o text generalizing front with
  | case1 o => simp at hsplit
  | case2 o d text hd ih =>
    cases front with
    | nil =>
      obtain rfl := (List.cons.inj hsplit).1
      exact Bool.noConfusion (hd.symm.trans htrim)
    | cons e front =>
      obtain ⟨rfl, htext⟩ := List.cons.inj hsplit
      obtain ⟨before, e, rest, hplace, he, hmem, hle, hlt⟩ := ih htext
      refine ⟨d :: before, e, rest, by rw [hplace, List.cons_append], he, ?_⟩
      rw [Encoding.size_cons, ← Nat.add_assoc, List.length_cons, List.length_cons]
      exact ⟨hmem, by omega, by omega⟩
  | case3 o d text hd l n hnext ih =>
    obtain ⟨hstop, hpos⟩ := next_stop o text ((Bool.not_eq_true _).mp hd)
    rw [hnext] at hstop hpos
    by_cases hhere : front.length < n
    · refine ⟨[], d, text, rfl, (Bool.not_eq_true _).mp hd, ?_⟩
      rw [Encoding.size_nil, Nat.add_zero, hnext]
      exact ⟨List.mem_cons_self, Nat.zero_le _, by simpa using hhere⟩
    · have hle : n ≤ front.length := Nat.le_of_not_lt hhere
      have hdrop : text.drop (n - 1) = (d :: text).drop n := by
        obtain ⟨n, rfl⟩ := Nat.exists_eq_add_one.2 hpos
        rfl
      have hlater : text.drop (n - 1) = front.drop n ++ c :: back := by
        rw [hdrop, hsplit, List.drop_append_of_le_length hle]
      obtain ⟨before, e, rest, hplace, he, hmem, hbefore, hlt⟩ := ih hlater
      have htake : ((d :: text).take n).length = n := by
        rw [hsplit, List.length_take, List.length_append]
        omega
      refine ⟨(d :: text).take n ++ before, e, rest, ?_, he, ?_⟩
      · rw [List.append_assoc, ← hplace, hdrop, List.take_append_drop]
      · rw [List.length_drop] at hbefore hlt
        rw [Encoding.size_append, ← Nat.add_assoc, ← hstop, List.length_append, htake]
        dsimp only at hmem hlt ⊢
        exact ⟨List.mem_cons_of_mem _ hmem, by omega, by omega⟩

/-- What is committed without token are the characters that are taken. -/
theorem text_of_unrecognized {o : Nat}
    (h : (R.next o (c :: rest)).1.isRecognized = false) :
    (∀ token ∈ R.tokens, R.lexemeOf (c :: rest) token = none) ∧
      (R.next o (c :: rest)).2
        = (if R.furthest (c :: rest) = 0 then R.runLength (c :: rest)
            else R.furthest (c :: rest)) ∧
      (R.next o (c :: rest)).1.text
        = ((c :: rest).take (R.next o (c :: rest)).2).map toAscii := by
  rw [next] at h ⊢
  cases hlongest : longest Lexeme.stop (R.tokens.filterMap (R.lexemeOf (c :: rest))) with
  | some l =>
    obtain ⟨token, -, htoken⟩ := List.mem_filterMap.1 (mem_of_longest hlongest)
    obtain ⟨n, st, rfl, -⟩ := exists_extracted htoken
    simp [hlongest, extracted, Lexeme.isRecognized] at h
  | none => exact ⟨longest_eq_none_iff.1 hlongest, rfl, rfl⟩

/-- Some token takes as much as any does. -/
theorem exists_taken_eq_furthest {text : List Char} (h : R.furthest text ≠ 0) :
    ∃ token ∈ R.tokens, R.taken text token = R.furthest text := by
  rw [furthest] at h ⊢
  cases hmax : (R.tokens.map (R.taken text)).max? with
  | none => exact absurd (by rw [hmax]; rfl) h
  | some n => exact List.mem_map.1 (List.max?_eq_some_iff.1 hmax).1

/-- **The characters of unrecognized lexemes**: each belongs to a run that no
token begins with, or has been taken by a token that has no lexeme there. -/
theorem forall_mem_unrecognized {Q : Char → Prop} (hrun : ∀ c, R.strays c = true → Q (toAscii c))
    (htaken : ∀ c rest, (∀ token ∈ R.tokens, R.lexemeOf (c :: rest) token = none) →
      ∀ token ∈ R.tokens, ∀ d ∈ (c :: rest).take (R.taken (c :: rest) token), Q (toAscii d))
    {o : Nat} {text : List Char} {l : Lexeme} (hl : l ∈ R.scan o text)
    (h : l.isRecognized = false) : ∀ d ∈ l.text, Q d := by
  obtain ⟨o', c, rest, -, rfl⟩ := exists_place hl
  obtain ⟨hnone, hlength, htext⟩ := text_of_unrecognized h
  rw [htext, hlength, List.forall_mem_map]
  split_ifs with hzero
  · intro d hd
    rw [runLength, ← List.prefix_iff_eq_take.1 (List.takeWhile_prefix R.strays)] at hd
    exact hrun d (List.mem_takeWhile_imp hd)
  · obtain ⟨token, htoken, hmost⟩ := exists_taken_eq_furthest hzero
    rw [← hmost]
    exact htaken c rest hnone token htoken

theorem next_start (o : Nat) (text : List Char) : (R.next o text).1.start = o := by
  rw [next]
  cases longest Lexeme.stop (R.tokens.filterMap (R.lexemeOf text)) <;> rfl

/-- **The span of a character** that is not trimmed: it lies in that of a
lexeme, and if that is unrecognized, the image of the character is in its
text. -/
theorem exists_span (o : Nat) (front back : List Char) (htrim : (R.policies.get c).trim = false) :
    ∃ l ∈ R.scan o (front ++ c :: back), l.start ≤ o + R.encoding.size front ∧
      o + R.encoding.size (front ++ [c]) ≤ l.stop ∧
      (l.isRecognized = false → toAscii c ∈ l.text) := by
  obtain ⟨before, d, rest, hsplit, hd, hmem, hle, hlt⟩ :=
    exists_place_of_mem o (Eq.refl (front ++ c :: back)) htrim
  obtain ⟨mid, rfl⟩ : before <+: front :=
    List.prefix_of_prefix_length_le ⟨d :: rest, hsplit.symm⟩ ⟨c :: back, rfl⟩ hle
  have hmid : d :: rest = mid ++ c :: back := by
    rw [List.append_assoc] at hsplit
    exact (List.append_cancel_left hsplit).symm
  obtain ⟨hstop, -⟩ := next_stop (o + R.encoding.size before) rest hd
  obtain ⟨k, hk⟩ : ∃ k, (R.next (o + R.encoding.size before) (d :: rest)).2
      = mid.length + (k + 1) := by
    rw [List.length_append] at hlt
    exact Nat.exists_eq_add_of_lt (Nat.lt_of_add_lt_add_left hlt)
  have htake : (d :: rest).take (R.next (o + R.encoding.size before) (d :: rest)).2
      = mid ++ c :: back.take k := by
    rw [hk, hmid, List.take_length_add_append, List.take_succ_cons]
  refine ⟨_, hmem, ?_, ?_, fun hunrecognized => ?_⟩
  · rw [next_start, Encoding.size_append]
    omega
  · rw [hstop, htake]
    simp only [Encoding.size_append, Encoding.size_cons, Encoding.size_nil]
    omega
  · rw [(text_of_unrecognized hunrecognized).2.2, htake]
    exact List.mem_map_of_mem (by simp)

end Reference

end Lexing
