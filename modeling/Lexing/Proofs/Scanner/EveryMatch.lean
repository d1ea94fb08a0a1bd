import Mathlib.Data.List.Perm.Basic
import Lexing.Proofs.Scanner.Choice
import Lexing.Proofs.Tokenizer.Driven

/-!
# Interleaving finds every match

With interleaving a candidate may begin at any character, also inside the
matches of others. All of them share one signature and die at different steps,
and when the last one has died without a lexeme, others may begin with the same
character. Still each sees the characters from its own start on and no others:
a bucket that fits the signature sees the text from its place on, so what the
buckets will come to can be said beforehand, as for a single one.

So what waits when a search ends is what extraction gives for every token at
every character since the first candidate began, in the order of length, start
and rank (`Tokenizer.search_finds_every_match`), unless there is no lexeme of a
token at all.
-/

namespace Lexing

variable {σ : Type}

open Tokenizer

/-! ## Every match of a text -/

/-- A waiting lexeme without its line. -/
def Ready.bare (r : Ready) : Ready := { r with lexeme := r.lexeme.withoutLine }

/-- One lexeme of a token comes before another: it is longer, or as long and
starts earlier, or has the same place and its token is preferred. -/
def Ready.Precedes (a b : Ready) : Prop :=
  b.lexeme.size < a.lexeme.size ∨ a.lexeme.size = b.lexeme.size ∧
    (a.lexeme.start < b.lexeme.start ∨ a.lexeme.start = b.lexeme.start ∧
      ∃ i j, a.rank = some i ∧ b.rank = some j ∧ i < j)

namespace Reference

variable (R : Reference σ)

/-- What extraction gives for each token at a place, with the rank of the
token. -/
def matchesAt (o : Nat) (text : List Char) : List Ready :=
  R.tokens.zipIdx.filterMap fun p =>
    (R.lexemeOf text p.1).map fun l => ⟨{ l with start := o, stop := o + l.stop }, some p.2⟩

/-- **Every match** that starts at one of some characters, on the text that
they and those behind them make up. -/
def matchesIn (o : Nat) : (mid rest : List Char) → List Ready
  | [], _ => []
  | c :: mid, rest =>
    R.matchesAt o (c :: mid ++ rest) ++ matchesIn (o + R.encoding.unitLen c) mid rest

/-- **Where a search has swept**: characters that are trimmed make up the gap,
candidates have begun with the first character behind it, and the search has
ended at the first character of `rest`, or at the end of the text. -/
structure Swept (o : Nat) (gap mid rest : List Char) (position : Nat) : Prop where
  trimmed : ∀ d ∈ gap, (R.policies.get d).trim = true
  begins : ∃ c more, mid = c :: more ∧ (R.policies.get c).trim = false ∧ R.begins c = true
  position_eq : position = o + R.encoding.size (gap ++ mid) + if rest = [] then 0 else 1

/-- **Lexemes list every match**, each once and in order. -/
def ListsMatches (o : Nat) (mid rest : List Char) (lexemes : List Lexeme) : Prop :=
  ∃ found : List Ready, found.Perm (R.matchesIn o mid rest) ∧ found.Pairwise Ready.Precedes ∧
    lexemes.map Lexeme.withoutLine = found.map (·.lexeme)

variable {R} {o : Nat} {c : Char} {mid rest : List Char}

theorem matchesIn_snoc :
    R.matchesIn o (mid ++ [c]) rest
      = R.matchesIn o mid (c :: rest) ++ R.matchesAt (o + R.encoding.size mid) (c :: rest) := by
  induction mid generalizing o with
  | nil => simp [matchesIn]
  | cons d mid ih =>
    rw [List.cons_append, matchesIn, matchesIn, ih, Encoding.size_cons, List.append_assoc,
      Nat.add_assoc]
    simp

/-- Where no token begins, there is no match. -/
theorem matchesAt_of_not_begins (h : R.begins c = false) : R.matchesAt o (c :: rest) = [] := by
  refine List.filterMap_eq_nil_iff.2 fun p hp => ?_
  rw [(of_not_begins rest h (List.fst_mem_of_mem_zipIdx hp)).1]
  rfl

/-- A match starts at its place, and its token has a rank. -/
theorem of_mem_matchesAt {text : List Char} {r : Ready} (h : r ∈ R.matchesAt o text) :
    r.lexeme.start = o ∧ ∃ rank, r.rank = some rank := by
  obtain ⟨p, -, hr⟩ := List.mem_filterMap.1 h
  obtain ⟨l, -, rfl⟩ := Option.map_eq_some_iff.1 hr
  exact ⟨rfl, p.2, rfl⟩

theorem of_mem_matchesIn {r : Ready} (h : r ∈ R.matchesIn o mid rest) :
    o ≤ r.lexeme.start ∧ ∃ rank, r.rank = some rank := by
  induction mid generalizing o with
  | nil => exact nomatch h
  | cons c mid ih =>
    obtain h | h := List.mem_append.1 h
    · obtain ⟨hstart, hrank⟩ := of_mem_matchesAt h
      exact ⟨Nat.le_of_eq hstart.symm, hrank⟩
    · obtain ⟨hstart, hrank⟩ := ih h
      exact ⟨Nat.le_of_add_right_le hstart, hrank⟩

/-- **There is one match at most for a place and a token.** -/
theorem pairwise_matchesIn (R : Reference σ) (o : Nat) (mid rest : List Char) :
    (R.matchesIn o mid rest).Pairwise fun a b =>
      a.lexeme.start ≠ b.lexeme.start ∨ a.rank ≠ b.rank := by
  induction mid generalizing o with
  | nil => exact List.Pairwise.nil
  | cons c mid ih =>
    refine List.pairwise_append.2 ⟨?_, ih _, fun a ha b hb => .inl ?_⟩
    · have hranks : R.tokens.zipIdx.Pairwise fun p q => p.2 ≠ q.2 := by
        rw [← List.pairwise_map (f := Prod.snd) (R := (· ≠ ·)), List.zipIdx_map_snd]
        exact List.nodup_range'
      refine List.Pairwise.filterMap _ (fun p q hpq a ha b hb => .inr ?_) hranks
      obtain ⟨l, -, rfl⟩ := Option.map_eq_some_iff.1 ha
      obtain ⟨k, -, rfl⟩ := Option.map_eq_some_iff.1 hb
      exact fun h => hpq (Option.some.inj h)
    · have hpos := R.encoding.unitLen_pos c
      have ha := (of_mem_matchesAt ha).1
      have hb := (of_mem_matchesIn hb).1
      omega

end Reference

/-! ## What the candidates come to -/

section Begin

variable {R : Reference σ} {mode : Mode} {t : Tokenizer σ} {b : Bucket σ} {c : Char}

/-- What a candidate that begins comes to is what extraction gives. -/
theorem bare_prospect_of_begin (rest : List Char) {p : Token σ × Nat} {x : Candidate σ}
    (hx : Candidate.begin? p.1 R.reserved p.2 (toAscii c) = some x) :
    (b.prospect R.encoding [c] rest x).map Ready.bare
      = ((R.lexemeOf (c :: rest) p.1).map fun l =>
          ⟨{ l with start := b.start, stop := b.start + l.stop }, some p.2⟩).toList := by
  have htext : [c].map toAscii = [toAscii c] := rfl
  obtain ⟨htoken, hrank⟩ := token_of_begin hx
  rw [lexemeOf_of_begin rest hx, Bucket.prospect, htext]
  cases x.outcome [toAscii c] (rest.map toAscii) with
  | none => rfl
  | some q => simp [Bucket.placed, htoken, hrank, extracted, Ready.bare, Lexeme.withoutLine]

/-- **The candidates that begin at a character come to the matches there.** -/
theorem bare_prospects_beginning (hR : R.Describes mode t) (rest : List Char) :
    ((t.beginning (toAscii c)).flatMap (b.prospect R.encoding [c] rest)).map Ready.bare
      = R.matchesAt b.start (c :: rest) := by
  rw [beginning, hR.tokens, hR.reserved, Reference.matchesAt]
  induction R.tokens.zipIdx with
  | nil => rfl
  | cons p ps ih =>
    simp only [List.filterMap_cons]
    cases hx : Candidate.begin? p.1 R.reserved p.2 (toAscii c) with
    | none => simp only [ih, (of_refuse rest hx).1, Option.map_none]
    | some x =>
      rw [List.flatMap_cons, List.map_append, ih, bare_prospect_of_begin rest hx]
      cases R.lexemeOf (c :: rest) p.1 <;> rfl

end Begin

/-! ## Buckets that share a signature -/

section Sweep

variable {e : Encoding} {P : PolicyTable} {s : Signature} {o here : Nat} {c : Char}
  {mid rest : List Char}

/-- What the candidates of some buckets come to, which share the signature of
`mid`. -/
def prospectsOf (bs : List (Bucket σ)) (e : Encoding) (mid rest : List Char) : List Ready :=
  bs.flatMap fun b => b.live.flatMap (b.prospect e (mid.drop b.key) rest)

/-- **A step keeps what all buckets come to**, those that it empties included. -/
theorem perm_prospectsOf (hP : P.OnlyTrims) (hs : s = trace e P o mid)
    (hhere : here = o + e.size mid) (c : Char) (rest : List Char) (bs : List (Bucket σ))
    (hbs : ∀ b ∈ bs, b.Fits s) :
    (prospectsOf bs e mid (c :: rest)).Perm
      ((bs.flatMap fun b => b.yielded s here (toAscii c) false b.live) ++
        prospectsOf ((bs.map (·.passed s (toAscii c) false)).filter (!·.live.isEmpty)) e
          (mid ++ [c]) rest) := by
  induction bs with
  | nil => exact List.Perm.refl _
  | cons b bs ih =>
    obtain ⟨hb, hbs⟩ := List.forall_mem_cons.1 hbs
    have hown := (sees_of_trace hP hs hhere hb).prospects_offered hb c rest b.live fun _ hx => hx
    have hdrop : (mid ++ [c]).drop b.key = mid.drop b.key ++ [c] := by
      have hlt := hb.key_lt
      rw [hs, length_trace hP] at hlt
      exact List.drop_append_of_le_length (Nat.le_of_lt hlt)
    have hkept : prospectsOf (((b :: bs).map (·.passed s (toAscii c) false)).filter
          (!·.live.isEmpty)) e (mid ++ [c]) rest
        = (b.goingOn s (toAscii c) false b.live).flatMap
            (b.prospect e (mid.drop b.key ++ [c]) rest) ++
          prospectsOf ((bs.map (·.passed s (toAscii c) false)).filter (!·.live.isEmpty)) e
            (mid ++ [c]) rest := by
      rw [List.map_cons, List.filter_cons, ← hdrop]
      cases hlive : b.goingOn s (toAscii c) false b.live with
      | nil => simp [Bucket.passed, hlive]
      | cons y ys => simp [Bucket.passed, hlive, prospectsOf]; rfl
    rw [prospectsOf, List.flatMap_cons, List.flatMap_cons, hkept]
    refine (hown.append (ih hbs)).trans ?_
    rw [List.append_assoc, List.append_assoc]
    exact (List.perm_append_comm_assoc _ _ _).append_left _

/-- At the end of a text the buckets yield all that they come to. -/
theorem perm_prospectsOf_nil (hP : P.OnlyTrims) (hs : s = trace e P o mid)
    (hhere : here = o + e.size mid) (bs : List (Bucket σ)) (hbs : ∀ b ∈ bs, b.Fits s) :
    (bs.flatMap fun b => yieldedAtEnd s here b b.live).Perm (prospectsOf bs e mid []) :=
  List.Perm.flatMap_left bs fun b hb =>
    (sees_of_trace hP hs hhere (hbs b hb)).perm_yieldedAtEnd (hbs b hb)

end Sweep

/-! ## A search -/

section Search

variable {R : Reference σ} {t u v : Tokenizer σ} {o floor : Nat} {c : Char}
  {mid rest : List Char} {lines : LineTable} {newlineRun : Option Nat}

/-- **A tokenizer that sweeps a text**: candidates have begun with the first
character of `mid`, and perhaps with later ones. What waits and what they will
come to is every match in `mid`. -/
structure Tokenizer.Sweeps (t : Tokenizer σ) (R : Reference σ) (o : Nat) (mid : List Char) :
    Prop where
  describes : R.Describes ⟨.all, true⟩ t
  position : t.position = o + R.encoding.size mid
  active : t.active ≠ []
  signature : t.signature = trace R.encoding R.policies o mid
  unmatched : t.unmatched = none
  perm_matches (rest : List Char) :
    ((t.results ++ prospectsOf t.active R.encoding mid rest).map Ready.bare).Perm
      (R.matchesIn o mid rest)

/-- A search that is in an unmatched run ends with it, and no token has made
that. -/
theorem SearchedText.unrecognized_of_run (h : SearchedText t rest v) (hactive : t.active = [])
    (hresults : t.results = []) (hrun : t.unmatched ≠ none) :
    ∀ r ∈ v.results, r.lexeme.isRecognized = false := by
  induction h with
  | finished t =>
    obtain ⟨run, hrun⟩ := Option.ne_none_iff_exists'.1 hrun
    rw [results_finished_of_idle hactive, hresults, hrun]
    exact List.forall_mem_singleton.2 rfl
  | ready lines newlineRun hlines htreated =>
    cases htreated.idle hactive hresults (signature_tracked_of_idle lines newlineRun hactive) with
    | disallowed _ _ _ hv => exact hv ▸ List.forall_mem_singleton.2 rfl
    | interrupted run _ _ hv => exact hv ▸ List.forall_mem_singleton.2 rfl
  | onward lines newlineRun hlines htreated _ ih =>
    cases htreated.idle hactive hresults (signature_tracked_of_idle lines newlineRun hactive) with
    | trimmed _ hnone => exact absurd hnone hrun
    | begun _ _ _ _ hnone => exact absurd hnone hrun
    | ignored _ _ _ hu => exact ih (hu ▸ hactive) (hu ▸ hresults) (hu ▸ hrun)
    | unmatched _ _ _ _ ha hr hsome =>
      exact ih ha hr fun hnone => nomatch hnone.symm.trans hsome

namespace Tokenizer.Sweeps

/-- The tokenizer at a character, after the candidates have been offered it. -/
def atChar (t : Tokenizer σ) (lines : LineTable) (run : Option Nat) (c : Char) : Tokenizer σ :=
  (t.tracked lines run).offered t.position (toAscii c)
    ⟨t.active.map (·.passed t.signature (toAscii c) false),
      t.active.flatMap fun b => b.yielded t.signature t.position (toAscii c) false b.live, false⟩

/-- Offering a character keeps what waits and what the candidates come to. -/
theorem perm_atChar (h : t.Sweeps R o mid) (hP : R.policies.OnlyTrims) (hplaced : t.Placed floor)
    (lines : LineTable) (run : Option Nat) (c : Char) (rest : List Char) :
    (((atChar t lines run c).results ++
        prospectsOf (atChar t lines run c).active R.encoding (mid ++ [c]) rest).map
          Ready.bare).Perm (R.matchesIn o mid (c :: rest)) := by
  have hperm := perm_prospectsOf hP h.signature h.position c rest t.active hplaced.held.fits
  have hresults : (atChar t lines run c).results = t.results ++ t.active.flatMap fun b =>
    b.yielded t.signature t.position (toAscii c) false b.live := rfl
  rw [hresults, List.append_assoc]
  exact ((hperm.symm.append_left t.results).map _).trans (h.perm_matches (c :: rest))

/-- Where candidates are at work, a character comes to an outcome of offering
it to them. -/
theorem outcome (h : t.Sweeps R o mid) (hP : R.policies.OnlyTrims) {width : Nat} {r : Bool}
    (htreated : Treated (t.tracked lines run) t.position width (toAscii c) r u) :
    Outcome (atChar t lines run c) t.signature.length t.position width (toAscii c) false false
      r u := by
  have hsame := signature_tracked_of_live lines run h.active
  obtain ⟨hdisallow, hpass, hterminate⟩ := hP.get_eq (toAscii c)
  rw [← h.describes.policies] at hdisallow hpass hterminate
  have hselect : decide (t.mode.select = .first) = false := by
    rw [h.describes.mode]
    rfl
  cases htreated with
  | trimmed _ hnone => exact absurd hnone h.active
  | interrupted _ hnone => exact absurd hnone h.active
  | disallowed _ _ hnone => exact absurd hnone h.active
  | ignored hignore => exact Bool.noConfusion (hignore.symm.trans hpass)
  | consumed _ _ st hst _ _ hout =>
    rw [show (t.tracked lines run).policies = t.policies from rfl, hdisallow, hterminate,
      show (t.tracked lines run).mode = t.mode from rfl, hselect] at hst
    obtain rfl := hst.of_not_firstOnly
    rw [show (t.tracked lines run).policies = t.policies from rfl, hdisallow, hsame] at hout
    exact hout

/-- Offering a character goes on with the signature of the text. -/
theorem signature_atChar (h : t.Sweeps R o mid) (hP : R.policies.OnlyTrims) (lines : LineTable)
    (run : Option Nat) (c : Char) :
    (atChar t lines run c).signature = trace R.encoding R.policies o (mid ++ [c]) := by
  have hsame : (t.tracked lines run).signature = t.signature :=
    signature_tracked_of_live lines run h.active
  rw [trace_append, ← h.signature, ← h.position, trace_cons_of_pass (hP.get_eq c).2.1, ← hsame]
  rfl

/-- At a character that ends the search, every match waits. -/
theorem ready (h : t.Sweeps R o mid) (hP : R.policies.OnlyTrims) (hplaced : t.Placed floor)
    (rest : List Char) {width : Nat}
    (htreated : Treated (t.tracked lines run) t.position width (toAscii c) true v) :
    (v.results.map Ready.bare).Perm (R.matchesIn o mid (c :: rest)) := by
  have hmode : (atChar t lines run c).mode = ⟨.all, true⟩ := h.describes.mode
  cases h.outcome hP htreated with
  | ready _ hwhy =>
    have hcomplete := (hwhy.resolve_left Bool.false_ne_true).resolve_left Bool.false_ne_true
    have hactive : (atChar t lines run c).active = [] := by
      refine (resultsComplete_iff.1 hcomplete).resolve_left fun hne => hne ?_
      rw [hmode]
    have hperm := h.perm_atChar hP hplaced lines run c rest
    rwa [hactive, prospectsOf, List.flatMap_nil, List.append_nil] at hperm
  | wasted _ _ _ hwhy =>
    rw [hmode] at hwhy
    exact (hwhy.elim Bool.false_ne_true Bool.false_ne_true.symm).elim
  | interrupted _ _ _ run' hrun => exact nomatch h.unmatched.symm.trans hrun

/-- **At a character that ends nothing** the sweep goes on, or has become a run
of unmatched characters. -/
theorem onward (h : t.Sweeps R o mid) (hP : R.policies.OnlyTrims) (hplaced : t.Placed floor)
    (htreated : Treated (t.tracked lines run) t.position (R.encoding.unitLen c) (toAscii c) false
      u) :
    (u.passedOver (R.encoding.unitLen c - 1)).Sweeps R o (mid ++ [c]) ∨
      u.active = [] ∧ u.results = [] ∧ u.unmatched ≠ none := by
  have hsetup := h.describes.onward htreated (R.encoding.unitLen c - 1)
  have hmode : (atChar t lines run c).mode = ⟨.all, true⟩ := h.describes.mode
  have hposition := htreated.position_snoc h.position
  have hsignature := h.signature_atChar hP lines run c
  have hperm := h.perm_atChar hP hplaced lines run c
  cases h.outcome hP htreated with
  | waiting _ hactive hbegin =>
    have hnone : t.beginning (toAscii c) = [] := by
      refine hbegin.resolve_left ?_
      rw [hmode]
      exact Bool.false_ne_true.symm
    refine .inl ⟨hsetup, hposition, hactive, ?_, h.unmatched, fun rest => ?_⟩
    · exact (signature_passedOver_of_live _ hactive).trans hsignature
    · rw [Reference.matchesIn_snoc, Reference.matchesAt_of_not_begins
        ((beginning_eq_nil_iff h.describes).1 hnone), List.append_nil]
      exact hperm rest
  | unmatched hgo hactive =>
    exact .inr ⟨hactive, hgo.results_of_idle hactive, fun h => nomatch h⟩
  | begun _ _ _ hrun =>
    have hkey : (atChar t lines run c).signature.length - 1 = mid.length := by
      rw [hsignature, length_trace hP, List.length_append, List.length_singleton,
        Nat.add_sub_cancel]
    have hne : ((atChar t lines run c).begun t.position (toAscii c)).active ≠ [] :=
      List.append_ne_nil_of_right_ne_nil _ (List.cons_ne_nil _ _)
    refine .inl ⟨hsetup, hposition, hne, ?_, hrun, fun rest => ?_⟩
    · exact (signature_passedOver_of_live _ hne).trans hsignature
    -- the new bucket sees the last character, and comes to the matches there
    · rw [Reference.matchesIn_snoc, ← h.position]
      show (((atChar t lines run c).results ++ prospectsOf ((atChar t lines run c).active ++ [_])
        R.encoding (mid ++ [c]) rest).map Ready.bare).Perm _
      rw [prospectsOf, List.flatMap_append, ← List.append_assoc, List.map_append]
      refine (hperm rest).append (List.Perm.of_eq ?_)
      rw [List.flatMap_singleton, hkey, List.drop_left]
      exact bare_prospects_beginning h.describes rest

/-- At the end of the text every match waits, or nothing that a token has
made. -/
theorem finished (h : t.Sweeps R o mid) (hP : R.policies.OnlyTrims) (hplaced : t.Placed floor) :
    (∀ r ∈ t.finished.results, r.lexeme.isRecognized = false) ∨
      (t.finished.results.map Ready.bare).Perm (R.matchesIn o mid []) := by
  have hfinished : t.finished.results = t.covered.results := by
    simp [Tokenizer.finished, unmatched_covered, h.unmatched]
  rw [hfinished, covered]
  split
  next hnone =>
    rw [Bool.and_eq_true, List.isEmpty_iff] at hnone
    refine .inl ?_
    rw [reporting, hnone.2]
    exact List.forall_mem_singleton.2 rfl
  next =>
    have hend := perm_prospectsOf_nil hP h.signature h.position t.active hplaced.held.fits
    exact .inr (((hend.append_left t.results).map _).trans (h.perm_matches []))

end Tokenizer.Sweeps

/-- **A sweep ends with every match** of the characters it has read, or with
nothing that a token has made. -/
theorem SearchedText.sweeps (h : SearchedText t rest v) (hsweeps : t.Sweeps R o mid)
    (hP : R.policies.OnlyTrims) (hplaced : t.Placed floor) :
    (∀ r ∈ v.results, r.lexeme.isRecognized = false) ∨
      ∃ more left, rest = more ++ left ∧
        (v.results.map Ready.bare).Perm (R.matchesIn o (mid ++ more) left) ∧
        v.position = o + R.encoding.size (mid ++ more) + if left = [] then 0 else 1 := by
  induction h generalizing mid with
  | finished t =>
    refine (hsweeps.finished hP hplaced).imp_right fun hperm => ⟨[], [], rfl, ?_, ?_⟩
    · rwa [List.append_nil]
    · rw [List.append_nil, (frame_finished t).1, hsweeps.position]
      rfl
  | @ready t v c rest lines run hlines htreated =>
    refine .inr ⟨[], c :: rest, rfl, ?_, ?_⟩
    · rw [List.append_nil]
      exact hsweeps.ready hP hplaced rest htreated
    · rw [List.append_nil, htreated.frame.1, ← hsweeps.position]
      rfl
  | @onward t u v c rest lines run hlines htreated hrest ih =>
    rw [hsweeps.describes.encoding] at htreated hrest ih
    have hplaced' := (htreated.placed hplaced hlines (R.encoding.unitLen_pos c)).passedOver
      (R.encoding.unitLen c - 1)
    obtain hnext | ⟨hactive, hresults, hrun⟩ := hsweeps.onward hP hplaced htreated
    · refine (ih hnext hplaced').imp_right ?_
      rintro ⟨more, left, rfl, hperm, hposition⟩
      rw [List.append_assoc] at hperm hposition
      exact ⟨c :: more, left, rfl, hperm, hposition⟩
    · exact .inl (hrest.unrecognized_of_run hactive hresults hrun)

/-- A sweep starts with a character that begins a candidate. -/
theorem Reference.Describes.sweeps (hR : R.Describes ⟨.all, true⟩ t) (hP : R.policies.OnlyTrims)
    (htreated : Treated (t.tracked lines run) t.position (R.encoding.unitLen c) (toAscii c) false
      u) {line lineStart : Nat}
    (hactive : u.active = [⟨0, t.position, line, lineStart, t.beginning (toAscii c)⟩])
    (hresults : u.results = []) (hsignature : u.signature = [(toAscii c, t.position)])
    (hunmatched : u.unmatched = none) :
    (u.passedOver (R.encoding.unitLen c - 1)).Sweeps R t.position [c] := by
  refine ⟨hR.onward htreated _, ?_,
    by simp [passedOver, hactive], ?_, hunmatched, fun rest => ?_⟩
  · exact (htreated.position_passedOver (R.encoding.unitLen_pos c)).trans rfl
  · rw [signature_passedOver_of_live _ (by simp [hactive]), hsignature,
      trace_cons_of_pass (hP.get_eq c).2.1]
    rfl
  · show ((u.results ++ prospectsOf u.active R.encoding [c] rest).map Ready.bare).Perm _
    rw [hresults, hactive, List.nil_append, prospectsOf, List.flatMap_singleton,
      Reference.matchesIn, Reference.matchesIn, List.append_nil]
    exact List.Perm.of_eq (bare_prospects_beginning hR rest)

/-- **A search of a fresh tokenizer** ends with every match from the first
character on that begins a candidate, or with nothing that a token has made. -/
theorem SearchedText.everyMatch {text : List Char} (h : SearchedText t text v)
    (hR : R.Describes ⟨.all, true⟩ t) (hP : R.policies.OnlyTrims) (hplaced : t.Placed floor)
    (hfresh : t.Fresh) :
    (∀ r ∈ v.results, r.lexeme.isRecognized = false) ∨
      ∃ gap mid rest, text = gap ++ mid ++ rest ∧ R.Swept t.position gap mid rest v.position ∧
        (v.results.map Ready.bare).Perm
          (R.matchesIn (t.position + R.encoding.size gap) mid rest) := by
  induction h with
  | finished t =>
    refine .inl ?_
    rw [results_finished_of_idle hfresh.active, hfresh.results, hfresh.unmatched]
    exact fun r hr => nomatch hr
  | @ready t v c rest lines run hlines htreated =>
    cases htreated.idle hfresh.active hfresh.results
      (signature_tracked_of_idle lines run hfresh.active) with
    | disallowed _ _ _ hv => exact .inl (hv ▸ List.forall_mem_singleton.2 rfl)
    | interrupted _ _ _ hv => exact .inl (hv ▸ List.forall_mem_singleton.2 rfl)
  | @onward t u v c rest lines run hlines htreated hrest ih =>
    rw [hR.encoding] at htreated hrest ih
    have hwidth := R.encoding.unitLen_pos c
    have hsetup := hR.onward htreated (R.encoding.unitLen c - 1)
    have hplaced' := (htreated.placed hplaced hlines hwidth).passedOver (R.encoding.unitLen c - 1)
    have hposition := htreated.position_passedOver hwidth
    have hget : (t.tracked lines run).policies.get (toAscii c) = R.policies.get c := by
      rw [← R.policies.get_toAscii, ← hR.policies]
      rfl
    cases htreated.idle hfresh.active hfresh.results
      (signature_tracked_of_idle lines run hfresh.active) with
    | ignored _ _ hyes =>
      rw [hget] at hyes
      exact Bool.noConfusion (hyes.symm.trans (hP.get_eq c).2.1)
    | unmatched _ _ _ _ hactive hresults hrun =>
      exact .inl (hrest.unrecognized_of_run hactive hresults fun h => nomatch h.symm.trans hrun)
    | trimmed htrim _ hu =>
      subst hu
      refine (ih hsetup hplaced' ⟨hfresh.active, hfresh.results, hfresh.unmatched⟩).imp_right ?_
      rintro ⟨gap, mid, left, rfl, ⟨hgap, hbegins, hstop⟩, hperm⟩
      rw [hposition, Nat.add_assoc t.position, ← Encoding.size_cons] at hperm hstop
      exact ⟨c :: gap, mid, left, rfl,
        ⟨List.forall_mem_cons.2 ⟨hget ▸ htrim, hgap⟩, hbegins, hstop⟩, hperm⟩
    | begun htrim _ _ hbegin _ hresults hactive hsignature hunmatched =>
      have hsweeps := hR.sweeps hP htreated hactive hresults hsignature hunmatched
      refine (hrest.sweeps hsweeps hP hplaced').imp_right ?_
      rintro ⟨more, left, rfl, hperm, hstop⟩
      have hbegins : R.begins c = true := by
        refine (Bool.not_eq_false _).mp fun h => hbegin ?_
        exact (beginning_eq_nil_iff hR).2 h
      exact ⟨[], c :: more, left, rfl,
        ⟨List.forall_mem_nil _, ⟨c, more, rfl, hget ▸ htrim, hbegins⟩, hstop⟩, hperm⟩

end Search

/-! ## Taking them -/

/-- **Lexemes are taken in order**: those that wait, if they are every match. -/
theorem Reference.listsMatches_take {R : Reference σ} {v : Tokenizer σ} {o : Nat}
    {mid rest : List Char} (h : (v.results.map Ready.bare).Perm (R.matchesIn o mid rest)) :
    R.ListsMatches o mid rest v.take.1 := by
  have hperm : ((v.results.mergeSort takenBefore).map Ready.bare).Perm (R.matchesIn o mid rest) :=
    ((List.mergeSort_perm v.results takenBefore).map _).trans h
  refine ⟨_, hperm, ?_, by simp [take, Ready.bare]⟩
  have hdistinct := (hperm.pairwise_iff fun h => h.imp Ne.symm Ne.symm).2
    (R.pairwise_matchesIn o mid rest)
  have hsorted := List.pairwise_mergeSort takenBefore_trans takenBefore_total v.results
  have hsorted : ((v.results.mergeSort takenBefore).map Ready.bare).Pairwise fun a b =>
    takenBefore a b = true := List.pairwise_map.2 hsorted
  refine (hsorted.and hdistinct).imp_of_mem fun {a b} ha hb hab => ?_
  obtain ⟨-, i, hi⟩ := Reference.of_mem_matchesIn (hperm.mem_iff.1 ha)
  obtain ⟨-, j, hj⟩ := Reference.of_mem_matchesIn (hperm.mem_iff.1 hb)
  -- what is not strictly before has the same place and the same rank
  have hbefore := takenBefore_iff.1 hab.1
  rw [hi, hj] at hbefore
  refine hbefore.imp_right (And.imp_right (Or.imp_right ?_))
  rintro ⟨hstart, hle⟩
  have hne : i ≠ j := fun hij => hab.2.elim (fun h => h hstart) fun h => h (by rw [hi, hj, hij])
  exact ⟨hstart, i, j, hi, hj, Nat.lt_of_le_of_ne hle hne⟩

namespace Tokenizer

/-- **Interleaving finds every match.** However a tokenizer has been driven, if
nothing is under way in it and it awaits every candidate with interleaving on,
then a search through a text whose characters only pass or are trimmed succeeds;
and if it gives any lexeme of a token, it gives exactly what extraction gives
for every token at every character from the first candidate on, up to the
character that ends the search. -/
theorem search_finds_every_match (tokens : List (Token σ)) (config : TokenizerConfig)
    (commands : List (Command σ))
    (hrewind : ∀ place, .rewind place ∈ commands → config.offset ≤ place)
    {answers : List Answer} {t : Tokenizer σ}
    (hdrive : (new tokens config).drive commands = .ok (answers, t)) (hfresh : t.Fresh)
    (hmode : t.mode = ⟨.all, true⟩) (hpolicies : t.policies.OnlyTrims) (source : String) :
    ∃ lexemes v, Scanner.search t (t.encoding.units source) = .ok (lexemes, v) ∧
      ((∃ l ∈ lexemes, l.isRecognized = true) →
        let R : Reference σ := ⟨t.tokens, t.reserved, t.encoding, t.policies⟩
        ∃ gap mid rest, source.toList = gap ++ mid ++ rest ∧
          R.Swept t.position gap mid rest v.position ∧
          R.ListsMatches (t.position + R.encoding.size gap) mid rest lexemes) := by
  have hstart : (new tokens config).Drivable config.offset
      (tokens ++ commands.flatMap Command.tokens) :=
    drivable_new tokens config fun token htoken => List.mem_append_left _ htoken
  obtain ⟨_, _, hdrive', ht, -⟩ := drive_total hstart commands hrewind
    fun command hcommand token htoken =>
      List.mem_append_right _ (List.mem_flatMap.2 ⟨command, hcommand, htoken⟩)
  obtain ⟨rfl, rfl⟩ := Prod.mk.inj (Except.ok.inj (hdrive.symm.trans hdrive'))
  obtain ⟨floor, hplaced⟩ := ht.placed
  obtain ⟨v, hsearch, hsearched⟩ := search_total hplaced (t.encoding.units source)
  refine ⟨v.take.1, v.take.2, hsearch, fun ⟨l, hl, hrecognized⟩ => ?_⟩
  intro R
  rw [t.encoding.units_eq_flatMap] at hsearched
  have htext := hsearched.text rfl source.toList
  have hR : R.Describes ⟨.all, true⟩ t := ⟨rfl, rfl, rfl, rfl, hmode⟩
  obtain hnone | ⟨gap, mid, rest, hsplit, hswept, hperm⟩ :=
    htext.everyMatch hR hpolicies hplaced hfresh
  · obtain ⟨r, hr, rfl⟩ := mem_take.1 hl
    rw [hnone r hr] at hrecognized
    exact nomatch hrecognized
  · exact ⟨gap, mid, rest, hsplit, hswept, Reference.listsMatches_take hperm⟩

/-- The search for a number behind a blank gives one, and so every match. -/
theorem search_finds_every_number :
    let start : Tokenizer Numeric.Progress := new [(Token.numeric {} 0).toToken] {}
    let t : Tokenizer Numeric.Progress := { start with mode := ⟨.all, true⟩ }
    ((∀ place, .rewind place ∈ [Command.setMode (σ := Numeric.Progress) ⟨.all, true⟩] →
        0 ≤ place) ∧
      start.drive [.setMode ⟨.all, true⟩] = .ok ([.done], t) ∧ t.Fresh ∧
      t.mode = ⟨.all, true⟩ ∧ t.policies.OnlyTrims) ∧
    ∃ lexemes v, Scanner.search t (t.encoding.units " 1;") = .ok (lexemes, v) ∧
      (∃ l ∈ lexemes, l.isRecognized = true) ∧
      let R : Reference Numeric.Progress := ⟨t.tokens, t.reserved, t.encoding, t.policies⟩
      ∃ gap mid rest, " 1;".toList = gap ++ mid ++ rest ∧
        R.Swept t.position gap mid rest v.position ∧
        R.ListsMatches (t.position + R.encoding.size gap) mid rest lexemes := by
  intro start t
  have hdrive : start.drive [.setMode ⟨.all, true⟩] = .ok ([.done], t) := rfl
  have hpolicies : t.policies.OnlyTrims := onlyTrims_standard
  obtain ⟨lexemes, v, hsearch, hlists⟩ := search_finds_every_match
    [(Token.numeric {} 0).toToken] {} [.setMode ⟨.all, true⟩] (fun _ _ => Nat.zero_le _)
    hdrive ⟨rfl, rfl, rfl⟩ rfl hpolicies " 1;"
  have hsome : (Scanner.search t (t.encoding.units " 1;")).toOption.any
      (·.1.any (·.isRecognized)) = true := by decide +kernel
  rw [hsearch] at hsome
  have hrecognized : ∃ l ∈ lexemes, l.isRecognized = true := List.any_eq_true.1 hsome
  exact ⟨⟨fun _ _ => Nat.zero_le _, rfl, ⟨rfl, rfl, rfl⟩, rfl, hpolicies⟩, lexemes, v, hsearch,
    hrecognized, hlists hrecognized⟩

end Tokenizer

end Lexing
