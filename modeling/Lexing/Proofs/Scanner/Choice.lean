import Lexing.Proofs.Scanner.Await
import Lexing.Proofs.Scanner.Extraction

/-!
# The choice between lexemes

The candidates that begin at a place leave what extraction gives for their
tokens, and the lexeme that is taken first is the longest of that. So they
leave what the reference scanner commits there (`LeftBy.next`), whether that is
a lexeme of a token or what a token has taken in vain.
-/

namespace Lexing

variable {σ : Type}

open Tokenizer

/-! ## The choice between lexemes -/

/-- The first of the longest lexemes is known by the place of its token. -/
theorem longest_filterMap_zipIdx (f : Token σ → Option Lexeme) (tokens : List (Token σ)) (k : Nat) :
    match longest Lexeme.stop (tokens.filterMap f) with
    | none => ∀ p ∈ tokens.zipIdx k, f p.1 = none
    | some l => ∃ p ∈ tokens.zipIdx k, f p.1 = some l ∧
        ∀ q ∈ tokens.zipIdx k, ∀ l', f q.1 = some l' →
          l'.stop < l.stop ∨ l'.stop = l.stop ∧ p.2 ≤ q.2 := by
  induction tokens generalizing k with
  | nil => exact fun p hp => nomatch hp
  | cons token tokens ih =>
    have ih := ih (k + 1)
    rw [List.zipIdx_cons]
    cases hf : f token with
    | none =>
      rw [List.filterMap_cons_none hf]
      cases hlongest : longest Lexeme.stop (tokens.filterMap f) with
      | none =>
        rw [hlongest] at ih
        exact List.forall_mem_cons.2 ⟨hf, ih⟩
      | some l =>
        rw [hlongest] at ih
        obtain ⟨p, hp, hl, hbest⟩ := ih
        refine ⟨p, List.mem_cons_of_mem _ hp, hl, List.forall_mem_cons.2 ⟨fun l' h => ?_, hbest⟩⟩
        rw [hf] at h
        exact nomatch h
    | some a =>
      rw [List.filterMap_cons_some hf, longest]
      have hlater (q : Token σ × Nat) (hq : q ∈ tokens.zipIdx (k + 1)) : k ≤ q.2 :=
        Nat.le_of_succ_le (List.le_snd_of_mem_zipIdx hq)
      cases hlongest : longest Lexeme.stop (tokens.filterMap f) with
      | none =>
        rw [hlongest] at ih
        refine ⟨(token, k), List.mem_cons_self, hf, List.forall_mem_cons.2 ⟨fun l' h => ?_, ?_⟩⟩
        · rw [hf, Option.some.injEq] at h
          exact .inr ⟨by rw [h], Nat.le_refl _⟩
        · intro q hq l' h
          rw [ih q hq] at h
          exact nomatch h
      | some b =>
        rw [hlongest] at ih
        obtain ⟨p, hp, hb, hbest⟩ := ih
        -- the later one wins only if it is longer
        by_cases hlt : a.stop < b.stop
        · simp only [if_pos hlt]
          refine ⟨p, List.mem_cons_of_mem _ hp, hb, List.forall_mem_cons.2 ⟨fun l' h => ?_, hbest⟩⟩
          rw [hf, Option.some.injEq] at h
          exact .inl (h ▸ hlt)
        · simp only [if_neg hlt]
          refine ⟨(token, k), List.mem_cons_self, hf, List.forall_mem_cons.2 ⟨fun l' h => ?_, ?_⟩⟩
          · rw [hf, Option.some.injEq] at h
            exact .inr ⟨by rw [h], Nat.le_refl _⟩
          · intro q hq l' h
            have hle := hbest q hq l' h
            have hk := hlater q hq
            show l'.stop < a.stop ∨ l'.stop = a.stop ∧ k ≤ q.2
            omega

/-- A lexeme that stands at the start of a text, moved to the start of a
bucket. -/
def Bucket.relocated (b : Bucket σ) (l : Lexeme) : Lexeme :=
  { l with
    start := b.start
    stop := b.start + l.stop
    line := b.line
    lineOffset := b.start - b.lineStart }

section Choice

variable {R : Reference σ} {mode : Mode} {t : Tokenizer σ} {b : Bucket σ} {c : Char}
  {rest : List Char}

/-- A tokenizer is set up as a reference scanner is, in some mode. -/
structure Reference.Describes (R : Reference σ) (mode : Mode) (t : Tokenizer σ) : Prop where
  tokens : t.tokens = R.tokens
  reserved : t.reserved = R.reserved
  encoding : t.encoding = R.encoding
  policies : t.policies = R.policies
  mode : t.mode = mode

/-- What is not trimmed passes. -/
theorem Reference.Describes.passes (h : R.Describes mode t) (hpolicies : R.policies.OnlyTrims)
    (c : Char) : (t.policies.get c).disallow = false ∧ (t.policies.get c).ignore = false ∧
      (t.policies.get c).terminate = false := by
  rw [h.policies]
  exact hpolicies.get_eq c

theorem Reference.Describes.of_setupAs {u : Tokenizer σ} (h : R.Describes mode t)
    (hu : u.SetupAs t) : R.Describes mode u :=
  ⟨hu.tokens.trans h.tokens, hu.reserved.trans h.reserved, hu.encoding.trans h.encoding,
    hu.policies.trans h.policies, hu.mode.trans h.mode⟩

theorem Reference.Describes.onward {u : Tokenizer σ} (h : R.Describes mode t) {lines : LineTable}
    {run : Option Nat} {here width : Nat} {ready : Bool} {d : Char}
    (htreated : Treated (t.tracked lines run) here width d ready u) (n : Nat) :
    R.Describes mode (u.passedOver n) :=
  have hsetup := htreated.setupAs
  h.of_setupAs ⟨hsetup.tokens, hsetup.reserved, hsetup.mode, hsetup.encoding, hsetup.policies⟩

theorem mem_beginning (h : R.Describes mode t) {x : Candidate σ} :
    x ∈ t.beginning c ↔ ∃ p ∈ R.tokens.zipIdx, Candidate.begin? p.1 R.reserved p.2 c = some x := by
  rw [beginning, h.tokens, h.reserved, List.mem_filterMap]

theorem exists_rank {tokens : List (Token σ)} {token : Token σ} (h : token ∈ tokens) :
    ∃ rank, (token, rank) ∈ tokens.zipIdx := by
  obtain ⟨i, hi, rfl⟩ := List.getElem_of_mem h
  exact ⟨i, List.mk_mem_zipIdx_iff_getElem?.2 (List.getElem?_eq_getElem hi)⟩

/-- No candidate begins where the reference scanner lets no token begin. -/
theorem beginning_eq_nil_iff (h : R.Describes mode t) :
    t.beginning (toAscii c) = [] ↔ R.begins c = false := by
  rw [beginning, h.tokens, h.reserved, List.filterMap_eq_nil_iff, Reference.begins,
    List.any_eq_false]
  have hbegin (token : Token σ) (rank : Nat) :
      Candidate.begin? token R.reserved rank (toAscii c) = none ↔
        ¬(token.advance (token.fresh R.reserved) [] (toAscii c)).isSome = true := by
    rw [Candidate.begin?, Option.map_eq_none_iff, Option.not_isSome_iff_eq_none]
  constructor
  · intro h token htoken
    obtain ⟨rank, hrank⟩ := exists_rank htoken
    exact (hbegin token rank).1 (h _ hrank)
  · rintro h ⟨token, rank⟩ hp
    exact (hbegin token rank).2 (h token (List.fst_mem_of_mem_zipIdx hp))

/-- What a candidate comes to is what extraction gives for its token. -/
theorem mem_prospect_of_begin {p : Token σ × Nat} {x : Candidate σ}
    (hx : Candidate.begin? p.1 R.reserved p.2 (toAscii c) = some x) {r : Ready} :
    r ∈ b.prospect R.encoding [c] rest x ↔
      ∃ l, R.lexemeOf (c :: rest) p.1 = some l ∧ r = ⟨b.relocated l, some p.2⟩ := by
  have htext : [c].map toAscii = [toAscii c] := rfl
  obtain ⟨htoken, hrank⟩ := token_of_begin hx
  rw [lexemeOf_of_begin rest hx, Bucket.prospect, htext]
  cases x.outcome [toAscii c] (rest.map toAscii) with
  | none => simp
  | some q => simp [Bucket.placed, htoken, hrank, Bucket.relocated, extracted]

/-- A token that has a lexeme takes the first character. -/
theorem exists_begin_of_lexemeOf {token : Token σ} {l : Lexeme}
    (h : R.lexemeOf (c :: rest) token = some l) (rank : Nat) :
    ∃ x, Candidate.begin? token R.reserved rank (toAscii c) = some x := by
  refine Option.ne_none_iff_exists'.1 fun hnone => ?_
  rw [(of_refuse rest hnone).1] at h
  exact nomatch h

/-- **What the candidates come to** is what extraction gives for their tokens. -/
theorem mem_prospects (h : R.Describes mode t) (hlive : b.live = t.beginning (toAscii c))
    {r : Ready} :
    r ∈ b.live.flatMap (b.prospect R.encoding [c] rest) ↔
      ∃ p ∈ R.tokens.zipIdx, ∃ l, R.lexemeOf (c :: rest) p.1 = some l ∧
        r = ⟨b.relocated l, some p.2⟩ := by
  rw [hlive, List.mem_flatMap]
  constructor
  · rintro ⟨x, hx, hr⟩
    obtain ⟨p, hp, hbegin⟩ := (mem_beginning h).1 hx
    exact ⟨p, hp, (mem_prospect_of_begin hbegin).1 hr⟩
  · rintro ⟨p, hp, l, hl, hr⟩
    obtain ⟨x, hbegin⟩ := exists_begin_of_lexemeOf hl p.2
    exact ⟨x, (mem_beginning h).2 ⟨p, hp, hbegin⟩, (mem_prospect_of_begin hbegin).2 ⟨l, hl, hr⟩⟩

/-- **The lexeme that is taken first is the longest of those that tokens
contribute**, and that of the first token among these. -/
theorem longest_of_first? {f : Token σ → Option Lexeme} {tokens : List (Token σ)}
    {v : Tokenizer σ} {r : Ready}
    (hmem : ∀ q, q ∈ v.results ↔
      ∃ p ∈ tokens.zipIdx, ∃ l, f p.1 = some l ∧ q = ⟨b.relocated l, some p.2⟩)
    (hfirst : v.first? = some r) :
    ∃ l, longest Lexeme.stop (tokens.filterMap f) = some l ∧ r.lexeme = b.relocated l := by
  obtain ⟨p, hp, l, hl, rfl⟩ := (hmem r).1 (mem_of_first? hfirst)
  have hchoice := longest_filterMap_zipIdx f tokens 0
  cases hlongest : longest Lexeme.stop (tokens.filterMap f) with
  | none =>
    rw [hlongest] at hchoice
    have hnone := hchoice p hp
    rw [hl] at hnone
    exact nomatch hnone
  | some k =>
    rw [hlongest] at hchoice
    obtain ⟨q, hq, hk, hbest⟩ := hchoice
    have hlater : ⟨b.relocated k, some q.2⟩ ∈ v.results := (hmem _).2 ⟨q, hq, k, hk, rfl⟩
    have hbefore := takenBefore_iff.1 (takenBefore_of_first? hfirst hlater)
    have hle := hbest p hp l hl
    -- neither may come before the other, so both are of the same token
    have hsame : p.2 = q.2 := by
      simp only [Lexeme.size, Bucket.relocated, RankLe] at hbefore
      omega
    have hpq : p = q := by
      rw [List.mem_zipIdx_iff_getElem?] at hp hq
      rw [hsame, hq, Option.some.injEq] at hp
      exact Prod.ext hp.symm hsame
    rw [hpq, hk, Option.some.injEq] at hl
    exact ⟨k, rfl, by rw [hl]⟩

end Choice

/-! ## What the reference scanner commits -/

namespace Reference

variable {R : Reference σ} {c : Char} {rest : List Char}

theorem le_furthest {token : Token σ} {text : List Char} (h : token ∈ R.tokens) :
    R.taken text token ≤ R.furthest text := by
  have hmem : R.taken text token ∈ R.tokens.map (R.taken text) := List.mem_map_of_mem h
  rw [furthest]
  cases hmax : (R.tokens.map (R.taken text)).max? with
  | none =>
    rw [List.max?_eq_none_iff] at hmax
    rw [hmax] at hmem
    exact nomatch hmem
  | some n => exact (List.max?_eq_some_iff.1 hmax).2 _ hmem

theorem furthest_eq {text : List Char} {n : Nat} (hle : ∀ token ∈ R.tokens, R.taken text token ≤ n)
    (hmem : n = 0 ∨ ∃ token ∈ R.tokens, R.taken text token = n) : R.furthest text = n := by
  refine Nat.le_antisymm ?_ ?_
  · rw [furthest]
    cases hmax : (R.tokens.map (R.taken text)).max? with
    | none => exact Nat.zero_le n
    | some m =>
      obtain ⟨token, htoken, rfl⟩ := List.mem_map.1 (List.max?_eq_some_iff.1 hmax).1
      exact hle token htoken
  · obtain rfl | ⟨token, htoken, rfl⟩ := hmem
    · exact Nat.zero_le _
    · exact le_furthest htoken

/-- Where no token begins, none takes anything or gives anything. -/
theorem of_not_begins (rest : List Char) (h : R.begins c = false) {token : Token σ}
    (htoken : token ∈ R.tokens) :
    R.lexemeOf (c :: rest) token = none ∧ R.taken (c :: rest) token = 0 := by
  rw [begins, List.any_eq_false] at h
  have hnone : Candidate.begin? token R.reserved 0 (toAscii c) = none :=
    Option.map_eq_none_iff.2 (Option.not_isSome_iff_eq_none.1 (h token htoken))
  exact of_refuse rest hnone

/-- Where some token begins, some character is taken. -/
theorem furthest_pos (h : R.begins c = true) : 0 < R.furthest (c :: rest) := by
  rw [begins, List.any_eq_true] at h
  obtain ⟨token, htoken, hbegin⟩ := h
  obtain ⟨st, hst⟩ := Option.isSome_iff_exists.1 hbegin
  have hx : Candidate.begin? token R.reserved 0 (toAscii c)
      = some ⟨token, st, 0, if token.isValid st [toAscii c] then some (1, st) else none⟩ :=
    Option.map_eq_some_iff.2 ⟨st, hst, rfl⟩
  refine Nat.lt_of_lt_of_le ?_ (le_furthest htoken)
  rw [taken_of_begin rest hx]
  exact Candidate.length_le_reach _ [toAscii c] (rest.map toAscii)

theorem longest_eq_none_iff {f : Token σ → Option Lexeme} {tokens : List (Token σ)} :
    longest Lexeme.stop (tokens.filterMap f) = none ↔ ∀ token ∈ tokens, f token = none := by
  rw [← List.filterMap_eq_nil_iff]
  cases tokens.filterMap f with
  | nil => simp [longest]
  | cons l ls =>
    rw [longest]
    cases longest Lexeme.stop ls with
    | none => simp
    | some k =>
      simp only [reduceCtorEq, iff_false]
      split <;> simp

theorem mem_of_longest {ls : List Lexeme} {l : Lexeme} (h : longest Lexeme.stop ls = some l) :
    l ∈ ls := by
  induction ls with
  | nil => exact nomatch h
  | cons k ls ih =>
    rw [longest] at h
    cases hlater : longest Lexeme.stop ls with
    | none =>
      rw [hlater, Option.some.injEq] at h
      simp [h]
    | some m =>
      simp only [hlater] at h
      split at h
      · rw [Option.some.injEq] at h
        exact List.mem_cons_of_mem _ (ih (by rw [hlater, h]))
      · rw [Option.some.injEq] at h
        simp [h]

/-- **A choice is among what extraction gives**: `f` tells of each token what
extraction gives for it, or nothing. -/
def Among (R : Reference σ) (f : List Char → Token σ → Option Lexeme) : Prop :=
  ∀ text token l, f text token = some l → R.lexemeOf text token = some l

variable {f : List Char → Token σ → Option Lexeme}

theorem Among.eq_none (h : R.Among f) {text : List Char} {token : Token σ}
    (hnone : R.lexemeOf text token = none) : f text token = none := by
  cases hf : f text token with
  | none => rfl
  | some l => exact absurd (hnone.symm.trans (h _ _ _ hf)) (Option.some_ne_none l).symm

/-- **The next lexeme ends behind its characters**, of which there is one at
least. -/
theorem Among.nextBy_stop (h : R.Among f) (o : Nat) (rest : List Char)
    (htrim : (R.policies.get c).trim = false) :
    (R.nextBy f o (c :: rest)).1.stop
        = o + R.encoding.size ((c :: rest).take (R.nextBy f o (c :: rest)).2) ∧
      0 < (R.nextBy f o (c :: rest)).2 := by
  rw [nextBy]
  cases hlongest : longest Lexeme.stop (R.tokens.filterMap (f (c :: rest))) with
  | some l =>
    obtain ⟨token, -, htoken⟩ := List.mem_filterMap.1 (mem_of_longest hlongest)
    obtain ⟨n, st, rfl, hpos, hle⟩ := exists_extracted (h _ _ _ htoken)
    have hlength : (extracted R.encoding (c :: rest) token n st).text.length = n := by
      rw [extracted, List.length_take, List.length_map, Nat.min_eq_left hle]
    simp only [hlength]
    exact ⟨rfl, hpos⟩
  | none =>
    refine ⟨rfl, ?_⟩
    show 0 < if R.furthest (c :: rest) = 0 then R.runLength (c :: rest) else R.furthest (c :: rest)
    split
    next hzero =>
      have hbegins : R.begins c = false := by
        refine (Bool.not_eq_true _).mp fun h => ?_
        exact Nat.ne_of_gt (furthest_pos h) hzero
      rw [runLength, List.takeWhile_cons_of_pos (by rw [strays, htrim, hbegins]; rfl)]
      exact Nat.succ_pos _
    next hne => exact Nat.pos_of_ne_zero hne

theorem nextBy_of_longest {l : Lexeme} (o : Nat)
    (h : longest Lexeme.stop (R.tokens.filterMap (f (c :: rest))) = some l) :
    (R.nextBy f o (c :: rest)).1 = { l with start := o, stop := o + l.stop } := by
  rw [nextBy, h]

theorem nextBy_of_none (o : Nat)
    (h : longest Lexeme.stop (R.tokens.filterMap (f (c :: rest))) = none) :
    (R.nextBy f o (c :: rest)).1 = .stray R.encoding o ((c :: rest).take
      (if R.furthest (c :: rest) = 0 then R.runLength (c :: rest)
        else R.furthest (c :: rest))) := by
  rw [nextBy, h]

end Reference

section Left

variable {R : Reference σ} {mode : Mode} {t v : Tokenizer σ} {b : Bucket σ} {c : Char}
  {rest : List Char} {f : List Char → Token σ → Option Lexeme}

/-- Where candidates come to something, the choice is the reference scanner's. -/
theorem Reference.Among.next_of_found (hf : R.Among f) (hne : v.results ≠ [])
    (hmem : ∀ q, q ∈ v.results ↔ ∃ p ∈ R.tokens.zipIdx, ∃ l,
      f (c :: rest) p.1 = some l ∧ q = ⟨b.relocated l, some p.2⟩) :
    ∃ r, v.first? = some r ∧ r.lexeme.withoutLine = (R.nextBy f b.start (c :: rest)).1 := by
  obtain ⟨r, hr⟩ : ∃ r, v.first? = some r :=
    Option.ne_none_iff_exists'.1 fun hnone => hne (first?_eq_none_iff.1 hnone)
  obtain ⟨l, hl, hlexeme⟩ := longest_of_first? hmem hr
  obtain ⟨token, -, htoken⟩ := List.mem_filterMap.1 (Reference.mem_of_longest hl)
  obtain ⟨n, st, rfl, -⟩ := exists_extracted (hf _ _ _ htoken)
  refine ⟨r, hr, ?_⟩
  rw [Reference.nextBy_of_longest b.start hl, hlexeme]
  rfl

/-- **What the candidates take in vain** is what the reference scanner commits
as unrecognized. -/
theorem WastedBy.next {n : Nat} (h : WastedBy b R.encoding [c] rest n v.results)
    (hnone : b.live.flatMap (b.prospect R.encoding [c] rest) = []) (hR : R.Describes mode t)
    (hlive : b.live = t.beginning (toAscii c)) (hf : R.Among f) :
    ∃ r, v.first? = some r ∧ r.lexeme.withoutLine = (R.nextBy f b.start (c :: rest)).1 := by
  obtain ⟨hreached, hmost, r, hr, hlexeme⟩ := h
  refine ⟨r, first?_of_singleton hr, ?_⟩
  -- no candidate comes to a lexeme, so no token gives one
  have hlexemes : longest Lexeme.stop (R.tokens.filterMap (f (c :: rest))) = none := by
    refine Reference.longest_eq_none_iff.2 fun token htoken => hf.eq_none ?_
    obtain ⟨rank, hrank⟩ := exists_rank htoken
    refine Option.eq_none_iff_forall_ne_some.2 fun l hl => ?_
    have hmem := (mem_prospects hR hlive).2 ⟨_, hrank, l, hl, rfl⟩
    rw [hnone] at hmem
    exact nomatch hmem
  have hfurthest : R.furthest (c :: rest) = n := by
    refine Reference.furthest_eq (fun token htoken => ?_) (.inr ?_)
    · obtain ⟨rank, hrank⟩ := exists_rank htoken
      cases hbegin : Candidate.begin? token R.reserved rank (toAscii c) with
      | none =>
        rw [(of_refuse rest hbegin).2]
        exact Nat.zero_le n
      | some x =>
        rw [taken_of_begin rest hbegin]
        exact hmost x (hlive ▸ (mem_beginning hR).2 ⟨(token, rank), hrank, hbegin⟩)
    · obtain ⟨x, hx, hxn⟩ := hreached
      rw [hlive] at hx
      obtain ⟨⟨token, rank⟩, hp, hbegin⟩ := (mem_beginning hR).1 hx
      exact ⟨token, List.fst_mem_of_mem_zipIdx hp, by rw [taken_of_begin rest hbegin]; exact hxn⟩
  have hpos : n ≠ 0 := by
    obtain ⟨x, -, rfl⟩ := hreached
    exact Nat.ne_of_gt (x.length_le_reach [toAscii c] (rest.map toAscii))
  rw [Reference.nextBy_of_none b.start hlexemes, hfurthest, if_neg hpos, hlexeme]
  rfl

theorem Reference.among_lexemeOf (R : Reference σ) : R.Among R.lexemeOf := fun _ _ _ h => h

/-- **What the candidates leave** is what the reference scanner commits. -/
theorem LeftBy.next (h : LeftBy b R.encoding [c] rest [] v.results) (hR : R.Describes mode t)
    (hlive : b.live = t.beginning (toAscii c)) :
    ∃ r, v.first? = some r ∧
      r.lexeme.withoutLine = (R.nextBy R.lexemeOf b.start (c :: rest)).1 := by
  cases h with
  | found hperm hne =>
    exact R.among_lexemeOf.next_of_found (fun hnone => hne (hnone ▸ hperm).symm.eq_nil)
      fun q => hperm.mem_iff.trans (mem_prospects hR hlive)
  | wasted hnone n hwasted => exact hwasted.next hnone hR hlive R.among_lexemeOf

end Left

end Lexing
