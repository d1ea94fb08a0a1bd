import Lexing.Proofs.Scanner.Munch

/-!
# The lexeme that is decided first

A scan that reports lexemes after each step does not wait for the longest one.
Which candidates compete is settled by the character at which each of them
ends, whatever it falls back on: the first step in which some candidate ends
with a lexeme ends the search, and candidates that would have gone on count no
more. So of the tokens that have a lexeme at a place those are chosen from that
take the fewest characters there, and the end of the text is one more step
(`scan_eq_earliest`).
-/

namespace Lexing

variable {σ : Type}

open Tokenizer

namespace Reference

variable {R : Reference σ} {text : List Char} {token : Token σ} {l : Lexeme}

/-- **The lexeme of a token that is decided first**: what extraction gives for
the token, if no token that has a lexeme there takes fewer characters. -/
def earliestOf (R : Reference σ) (text : List Char) (token : Token σ) : Option Lexeme :=
  if R.tokens.all fun other =>
      (R.lexemeOf text other).isNone || R.taken text token ≤ R.taken text other
  then R.lexemeOf text token else none

theorem earliestOf_eq_some_iff : R.earliestOf text token = some l ↔
    R.lexemeOf text token = some l ∧ ∀ other ∈ R.tokens, R.lexemeOf text other ≠ none →
      R.taken text token ≤ R.taken text other := by
  rw [earliestOf, Option.ite_none_right_eq_some, and_comm, List.all_eq_true]
  refine and_congr_right fun _ => forall_congr' fun other => imp_congr_right fun _ => ?_
  rw [Bool.or_eq_true, Option.isNone_iff_eq_none, decide_eq_true_iff, or_iff_not_imp_left]

theorem among_earliestOf (R : Reference σ) : R.Among R.earliestOf := fun _ _ _ h =>
  (earliestOf_eq_some_iff.1 h).1

end Reference

section Decided

variable {e : Encoding} {P : PolicyTable} {b : Bucket σ} {s : Signature} {here : Nat}
variable {mid rest : List Char} {c : Char} {after : List Ready}

/-- The candidates that take `n` characters in all. -/
def Bucket.reaching (b : Bucket σ) (mid rest : List Char) (n : Nat) : List (Candidate σ) :=
  b.live.filter fun x => x.reach (mid.map toAscii) (rest.map toAscii) = n

/-- **What candidates leave that are decided first**: the lexemes of those
that end first with any, or else all that one of them has taken. -/
inductive DecidedBy (b : Bucket σ) (e : Encoding) (mid rest : List Char) (after : List Ready) :
    Prop
  /-- some lexemes are found -/
  | found (n : Nat)
    (hleast : ∀ x ∈ b.live, b.prospect e mid rest x ≠ [] →
      n ≤ x.reach (mid.map toAscii) (rest.map toAscii))
    (hperm : after.Perm ((b.reaching mid rest n).flatMap (b.prospect e mid rest)))
    (hne : after ≠ [])
  /-- no candidate comes to a lexeme -/
  | wasted (hnone : b.live.flatMap (b.prospect e mid rest) = []) (n : Nat)
    (hwasted : WastedBy b e mid rest n after)

/-- Candidates that all end here are decided together. -/
theorem DecidedBy.of_leftBy (h : LeftBy b e mid rest [] after)
    (hreach : ∀ x ∈ b.live, x.reach (mid.map toAscii) (rest.map toAscii) = mid.length) :
    DecidedBy b e mid rest after := by
  cases h with
  | wasted hnone n hwasted => exact .wasted hnone n hwasted
  | found hperm hne =>
    have hall : b.reaching mid rest mid.length = b.live :=
      List.filter_eq_self.2 fun x hx => decide_eq_true (hreach x hx)
    refine .found mid.length (fun x hx _ => Nat.le_of_eq (hreach x hx).symm) ?_ fun hnone => ?_
    · rwa [hall]
    · rw [hnone] at hperm
      exact hne hperm.symm.eq_nil

/-- The candidates that refuse a character take what has been read. -/
theorem reach_eq_length_iff {x : Candidate σ} (htext : b.text s = mid.map toAscii) :
    x.reach (mid.map toAscii) ((c :: rest).map toAscii) = mid.length ↔
      x.offered (b.text s) (toAscii c) false = none := by
  rw [htext, List.map_cons]
  cases hx : x.advance? (mid.map toAscii) (toAscii c) with
  | none =>
    rw [Candidate.reach_cons_of_none hx, List.length_map]
    exact iff_of_true rfl hx
  | some y =>
    have hlonger := y.length_le_reach (mid.map toAscii ++ [toAscii c]) (rest.map toAscii)
    rw [List.length_append, List.length_map, List.length_singleton] at hlonger
    rw [Candidate.reach_cons_of_some hx]
    refine iff_of_false (by omega) fun h => ?_
    exact Option.some_ne_none y (hx.symm.trans h)

/-- **A step that yields lexemes decides** for the candidates that end in it. -/
theorem DecidedBy.of_yielded (h : b.Sees e s here mid) (hfits : b.Fits s) (c : Char)
    (rest : List Char) (hne : b.yielded s here (toAscii c) false b.live ≠ []) :
    DecidedBy b e mid (c :: rest) (b.yielded s here (toAscii c) false b.live) := by
  have hreaching : b.reaching mid (c :: rest) mid.length
      = b.live.filter fun x => (x.offered (b.text s) (toAscii c) false).isNone :=
    List.filter_congr fun x _ => by
      simp only [reach_eq_length_iff h.text, Option.isNone_iff_eq_none.symm, Bool.decide_eq_true]
  refine .found mid.length (fun x _ _ => ?_) ?_ hne
  · have hle := x.length_le_reach (mid.map toAscii) ((c :: rest).map toAscii)
    rwa [List.length_map] at hle
  · rw [hreaching, Bucket.yielded, List.filter_reverse]
    refine ((List.reverse_perm _).flatMap_right _).trans (List.Perm.of_eq ?_)
    refine List.flatMap_congr fun x hx => ?_
    obtain ⟨hx, hrefuse⟩ := List.mem_filter.1 hx
    exact (h.prospect_of_none hfits hx (Option.isNone_iff_eq_none.1 hrefuse) rest).symm

/-- A candidate that goes on takes as many characters as before. -/
theorem Bucket.Sees.reach_eq (h : b.Sees e s here mid) {x y : Candidate σ}
    (htake : x.offered (b.text s) (toAscii c) false = some y) :
    y.reach ((mid ++ [c]).map toAscii) (rest.map toAscii)
      = x.reach (mid.map toAscii) ((c :: rest).map toAscii) := by
  rw [h.text] at htake
  rw [List.map_cons, Candidate.reach_cons_of_some htake, List.map_append]
  rfl

/-- Those that go on are the same, picked before the step or behind it. -/
theorem Bucket.Sees.goingOn_reaching (h : b.Sees e s here mid) (n : Nat) :
    b.goingOn s (toAscii c) false (b.reaching mid (c :: rest) n)
      = (b.passed s (toAscii c) false).reaching (mid ++ [c]) rest n := by
  rw [Bucket.goingOn, Bucket.reaching, List.filterMap_filter, Bucket.reaching, Bucket.passed,
    Bucket.goingOn, List.filter_filterMap]
  refine List.filterMap_congr fun x _ => ?_
  cases htake : x.offered (b.text s) (toAscii c) false with
  | none => simp
  | some y => simp only [Option.filter, h.reach_eq htake, decide_eq_true_eq]

/-- **A step that yields nothing leaves the decision** to the candidates that
go on. -/
theorem DecidedBy.of_offered (h : b.Sees e s here mid) (hfits : b.Fits s)
    (hnone : b.yielded s here (toAscii c) false b.live = [])
    (hlater : DecidedBy (b.passed s (toAscii c) false) e (mid ++ [c]) rest after) :
    DecidedBy b e mid (c :: rest) after := by
  have hvain := Bucket.yielded_eq_nil_iff.1 hnone
  cases hlater with
  | wasted hlater n hwasted =>
    have hperm := h.prospects_offered hfits c rest b.live fun _ hx => hx
    rw [hnone, show (b.goingOn s (toAscii c) false b.live).flatMap (b.prospect e (mid ++ [c]) rest)
      = [] from hlater] at hperm
    exact .wasted hperm.eq_nil n (hwasted.of_offered h.text)
  | found n hleast hperm hne =>
    refine .found n (fun x hx hprospect => ?_) (hperm.trans ?_) hne
    · cases htake : x.offered (b.text s) (toAscii c) false with
      | none =>
        rw [h.prospect_of_none hfits hx htake rest] at hprospect
        exact absurd (hvain x hx htake) hprospect
      | some y =>
        rw [h.prospect_of_some htake rest] at hprospect
        rw [← h.reach_eq htake]
        exact hleast y (List.mem_filterMap.2 ⟨x, hx, htake⟩) hprospect
    · have hperm := h.prospects_offered hfits c rest (b.reaching mid (c :: rest) n)
        fun x hx => List.mem_of_mem_filter hx
      have hyielded : b.yielded s here (toAscii c) false (b.reaching mid (c :: rest) n) = [] :=
        Bucket.yielded_eq_nil_iff.2 fun x hx => hvain x (List.mem_of_mem_filter hx)
      rw [hyielded, h.goingOn_reaching] at hperm
      exact hperm.symm

/-! ## A search -/

namespace Tokenizer.Awaits

variable {t u v : Tokenizer σ} {floor : Nat} {lines : LineTable} {run : Option Nat}

/-- At a character that ends the search. -/
theorem decided (h : t.Awaits .set b e P mid) (hP : P.OnlyTrims) (hplaced : t.Placed floor)
    (hresults : t.results = []) (rest : List Char) {width : Nat}
    (htreated : Treated (t.tracked lines run) t.position width (toAscii c) true v) :
    DecidedBy b e mid (c :: rest) v.results := by
  have hsame := h.signature_tracked lines run
  have hselect : (t.tracked lines run).mode.select = .set := congrArg Mode.select h.mode
  obtain ⟨hdisallow, -, hterminate⟩ := hP.get_eq (toAscii c)
  rw [← h.policies] at hdisallow hterminate
  have hend := (h.treatedLive hplaced htreated).ended (by rw [hselect]; decide) hdisallow hterminate
  rw [hsame, show (t.tracked lines run).results = [] from hresults, List.nil_append] at hend
  obtain ⟨hne, hv, -⟩ | ⟨hnone, hv, hdead⟩ := hend
  · rw [hv]
    exact .of_yielded (h.sees hP hplaced) (h.fits hplaced) c rest hne
  · have hsees := h.sees hP hplaced
    have hperm := hsees.prospects_offered (h.fits hplaced) c rest b.live fun _ hx => hx
    rw [show b.yielded t.signature t.position (toAscii c) false b.live = [] from hnone, hdead]
      at hperm
    exact .wasted hperm.eq_nil mid.length (h.wasted hP hplaced rest hdead hv)

end Tokenizer.Awaits

/-- **A search that reports after each step ends with what is decided first.** -/
theorem SearchedText.decided {t v : Tokenizer σ} {floor : Nat} (h : SearchedText t rest v)
    (hP : P.OnlyTrims) (hplaced : t.Placed floor) (hresults : t.results = [])
    (hawaits : t.Awaits .set b e P mid) : DecidedBy b e mid rest v.results := by
  induction h generalizing b mid with
  | finished t =>
    have hleft := hawaits.finished hP hplaced
    rw [hresults] at hleft
    refine .of_leftBy hleft fun x _ => ?_
    rw [List.map_nil, Candidate.reach, List.length_map]
  | ready lines run hlines htreated => exact hawaits.decided hP hplaced hresults _ htreated
  | @onward t u v c rest lines run hlines htreated _ ih =>
    rw [hawaits.encoding] at htreated ih
    obtain ⟨hnext, hkeep, hwait⟩ := hawaits.onward (by decide) hP hplaced htreated
    have hnone : u.results = [] := hwait.resolve_right (by decide)
    rw [hkeep, hresults, List.nil_append] at hnone
    refine .of_offered (hawaits.sees hP hplaced) (hawaits.fits hplaced) hnone (ih ?_ ?_ hnext)
    · exact (htreated.placed hplaced hlines (e.unitLen_pos c)).passedOver _
    · show u.results = []
      rw [hkeep, hresults, hnone]
      rfl

end Decided

/-! ## A scan -/

section Scan

variable {R : Reference σ} {t v : Tokenizer σ} {b : Bucket σ} {c : Char} {rest : List Char}

/-- **What is decided first** is what the reference scanner chooses from. -/
theorem mem_reaching {mode : Mode} {n : Nat} (hR : R.Describes mode t)
    (hlive : b.live = t.beginning (toAscii c))
    (hleast : ∀ x ∈ b.live, b.prospect R.encoding [c] rest x ≠ [] →
      n ≤ x.reach ([c].map toAscii) (rest.map toAscii))
    (hne : (b.reaching [c] rest n).flatMap (b.prospect R.encoding [c] rest) ≠ []) {r : Ready} :
    r ∈ (b.reaching [c] rest n).flatMap (b.prospect R.encoding [c] rest) ↔
      ∃ p ∈ R.tokens.zipIdx, ∃ l, R.earliestOf (c :: rest) p.1 = some l ∧
        r = ⟨b.relocated l, some p.2⟩ := by
  have hreach {p : Token σ × Nat} {x : Candidate σ}
      (hx : Candidate.begin? p.1 R.reserved p.2 (toAscii c) = some x) :
      x.reach ([c].map toAscii) (rest.map toAscii) = R.taken (c :: rest) p.1 :=
    (taken_of_begin rest hx).symm
  -- a token that has a lexeme takes at least as much as those that are decided
  have hleast' {token : Token σ} (htoken : token ∈ R.tokens)
      (hsome : R.lexemeOf (c :: rest) token ≠ none) : n ≤ R.taken (c :: rest) token := by
    obtain ⟨l, hl⟩ := Option.ne_none_iff_exists'.1 hsome
    obtain ⟨rank, hrank⟩ := exists_rank htoken
    obtain ⟨y, hy⟩ := exists_begin_of_lexemeOf hl rank
    have hmem : y ∈ b.live := hlive ▸ (mem_beginning hR).2 ⟨(token, rank), hrank, hy⟩
    have hle := hleast y hmem (List.ne_nil_of_mem
      ((mem_prospect_of_begin (p := (token, rank)) hy).2 ⟨l, hl, rfl⟩))
    rwa [hreach (p := (token, rank)) hy] at hle
  constructor
  · intro hr
    obtain ⟨x, hx, hr⟩ := List.mem_flatMap.1 hr
    obtain ⟨hx, hn⟩ := List.mem_filter.1 hx
    obtain ⟨p, hp, hbegin⟩ := (mem_beginning hR).1 (hlive ▸ hx)
    obtain ⟨l, hl, hr⟩ := (mem_prospect_of_begin hbegin).1 hr
    refine ⟨p, hp, l, Reference.earliestOf_eq_some_iff.2 ⟨hl, fun other hother hsome => ?_⟩, hr⟩
    rw [← hreach hbegin, of_decide_eq_true hn]
    exact hleast' hother hsome
  · rintro ⟨p, hp, l, hl, hr⟩
    obtain ⟨hl, hearliest⟩ := Reference.earliestOf_eq_some_iff.1 hl
    obtain ⟨x, hbegin⟩ := exists_begin_of_lexemeOf hl p.2
    have hx : x ∈ b.live := hlive ▸ (mem_beginning hR).2 ⟨p, hp, hbegin⟩
    -- one of those that are decided has a lexeme, and bounds the others
    obtain ⟨q, hq⟩ := List.exists_mem_of_ne_nil _ hne
    obtain ⟨y, hy, hq⟩ := List.mem_flatMap.1 hq
    obtain ⟨hy, hn⟩ := List.mem_filter.1 hy
    obtain ⟨p', hp', hbegin'⟩ := (mem_beginning hR).1 (hlive ▸ hy)
    obtain ⟨k, hk, -⟩ := (mem_prospect_of_begin hbegin').1 hq
    have hle := hearliest p'.1 (List.fst_mem_of_mem_zipIdx hp') (by simp [hk])
    rw [← hreach hbegin', of_decide_eq_true hn] at hle
    have hge := hleast' (List.fst_mem_of_mem_zipIdx hp) (by simp [hl])
    refine List.mem_flatMap.2 ⟨x, List.mem_filter.2 ⟨hx, decide_eq_true ?_⟩,
      (mem_prospect_of_begin hbegin).2 ⟨l, hl, hr⟩⟩
    rw [hreach hbegin]
    exact Nat.le_antisymm hle hge

/-- **What is decided first is what the reference scanner commits.** -/
theorem DecidedBy.next {mode : Mode} (h : DecidedBy b R.encoding [c] rest v.results)
    (hR : R.Describes mode t) (hlive : b.live = t.beginning (toAscii c)) :
    ∃ r, v.first? = some r ∧
      r.lexeme.withoutLine = (R.nextBy R.earliestOf b.start (c :: rest)).1 := by
  cases h with
  | found n hleast hperm hne =>
    refine R.among_earliestOf.next_of_found hne fun q => hperm.mem_iff.trans ?_
    exact mem_reaching hR hlive hleast fun hnone => hne (hnone ▸ hperm).eq_nil
  | wasted hnone n hwasted => exact hwasted.next hnone hR hlive R.among_earliestOf

/-- What is decided first serves a search that reports after each step. -/
theorem Reference.serves_earliestOf (hpolicies : R.policies.OnlyTrims) :
    R.Serves .set R.earliestOf where
  among := R.among_earliestOf
  next hR hsearch hplaced hawaits hresults hlive :=
    (hsearch.decided hpolicies hplaced hresults hawaits).next hR hlive

end Scan

/-- **Reporting after each step commits what is decided first**: whatever the
tokens, the reserved words, the encoding and the source are, a scan under
policies that only trim commits the lexemes of the reference scanner that
chooses from those of the tokens that take the fewest characters. -/
theorem scan_eq_earliest (tokens : List (Token σ)) (config : TokenizerConfig)
    (reserved : Option Reserved) (policies : PolicyTable) (source : String)
    (hmode : config.mode = ⟨.set, false⟩) (hpolicies : policies.OnlyTrims) :
    ∃ lexemes s',
      (Scanner.ofTokens tokens config reserved policies).scan source = .ok (lexemes, s') ∧
      lexemes.map Lexeme.withoutLine =
        let R : Reference σ := ⟨tokens, reserved, config.encoding, policies⟩
        R.scanBy R.earliestOf config.offset source.toList := by
  obtain ⟨lexemes, s', hscan, hcommitted⟩ := Scanner.scanUnits_total tokens config reserved policies
    (config.encoding.units source)
  refine ⟨lexemes, s', hscan, ?_⟩
  rw [config.encoding.units_eq_flatMap] at hcommitted
  have hplaced := Scanner.placed_ofTokens tokens config reserved policies
  exact hcommitted.munched (Reference.serves_earliestOf hpolicies) ⟨rfl, rfl, rfl, rfl, hmode⟩
    hpolicies hplaced ⟨rfl, rfl, rfl⟩ rfl

/-- Of two notations for fractions, the one that cannot go on is decided
first: `1.5` is committed as `1`, which is all that the other notation takes. -/
theorem scan_fractions_eq_earliest :
    ({ select := .set } : TokenizerConfig).mode = ⟨.set, false⟩ ∧
    PolicyTable.standard.OnlyTrims ∧
    let tokens := [(Token.numeric {} 0).toToken, (Token.numeric { fraction := ',' } 1).toToken]
    ∃ lexemes s', (Scanner.ofTokens tokens { select := .set } none .standard).scan "1.5 2,5 0x"
        = .ok (lexemes, s') ∧
      lexemes.map Lexeme.withoutLine =
        let R : Reference Numeric.Progress := ⟨tokens, none, .utf8, .standard⟩
        R.scanBy R.earliestOf 0 "1.5 2,5 0x".toList :=
  ⟨rfl, onlyTrims_standard,
    scan_eq_earliest [(Token.numeric {} 0).toToken, (Token.numeric { fraction := ',' } 1).toToken]
      { select := .set } none .standard "1.5 2,5 0x" rfl onlyTrims_standard⟩

end Lexing
