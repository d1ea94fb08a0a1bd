import Lexing.Proofs.Tokenizer.Driven
import Lexing.Proofs.Tokenizer.Lined
import Lexing.Token.Catalog

/-!
# Which lexeme is the first

A tokenizer that looks for the first lexeme only reports one lexeme for each
step, although several candidates may end in it. The order in which lexemes are
taken would prefer the longest of them, and of equally long ones that of the
token registered first. But a step is broken off at the first lexeme it meets,
and it asks the candidates of the tokens registered last before the others. So
what is reported is the lexeme of the token registered last, whatever its length
is (`feed_reports_last`): it is the preferred one only if it is longer than all
the others.
-/

namespace Lexing

variable {σ : Type}

namespace Bucket

variable {b : Bucket σ} {s : Signature} {here : Nat} {c : Char} {terminate : Bool}

/-- What those of the candidates `xs` give that a character ends, in their
order. -/
def ended (b : Bucket σ) (s : Signature) (here : Nat) (c : Char) (terminate : Bool)
    (xs : List (Candidate σ)) : List Ready :=
  (xs.filter fun x => (x.offered (b.text s) c terminate).isNone).flatMap (b.yield s here)

theorem ended_append (xs ys : List (Candidate σ)) :
    b.ended s here c terminate (xs ++ ys)
      = b.ended s here c terminate xs ++ b.ended s here c terminate ys := by
  unfold ended
  rw [List.filter_append, List.flatMap_append]

theorem ended_cons_of_none {x : Candidate σ} (h : x.offered (b.text s) c terminate = none)
    (xs : List (Candidate σ)) :
    b.ended s here c terminate (x :: xs) = b.yield s here x ++ b.ended s here c terminate xs := by
  unfold ended
  rw [List.filter_cons_of_pos (by rw [h]; rfl), List.flatMap_cons]

/-- A step lists the same lexemes in the other direction. -/
theorem ended_eq_nil_iff {xs : List (Candidate σ)} :
    b.ended s here c terminate xs = [] ↔ b.yielded s here c terminate xs = [] := by
  rw [yielded_eq_nil_iff]
  simp only [ended, List.flatMap_eq_nil_iff, List.mem_filter, Option.isNone_iff_eq_none, and_imp]

/-- A candidate gives one lexeme at most. -/
theorem exists_yield_eq_of_ne_nil {x : Candidate σ} (h : b.yield s here x ≠ []) :
    ∃ r, b.yield s here x = [r] := by
  unfold yield at h ⊢
  cases hsettled : x.settled (b.text s) with
  | none =>
    rw [hsettled] at h
    exact absurd rfl h
  | some p => exact ⟨_, rfl⟩

/-- Candidates in the order of their tokens give lexemes in that order. -/
theorem pairwise_ended {xs : List (Candidate σ)} (h : (xs.map (·.rank)).Pairwise (· < ·)) :
    (b.ended s here c terminate xs).Pairwise fun q r => ¬Tokenizer.RankLe r.rank q.rank := by
  unfold ended
  rw [List.pairwise_flatMap]
  refine ⟨fun x _ => ?_, ?_⟩
  · by_cases hnone : b.yield s here x = []
    · rw [hnone]
      exact List.Pairwise.nil
    · obtain ⟨r, hr⟩ := exists_yield_eq_of_ne_nil hnone
      rw [hr]
      exact List.pairwise_singleton _ _
  · refine ((List.pairwise_map.1 h).filter _).imp fun {x y} hxy q hq r hr => ?_
    rw [(of_mem_yield hq).2, (of_mem_yield hr).2]
    exact Nat.not_le.2 hxy

end Bucket

/-- **The preferred of some lexemes**: the longest, and of equally long ones
that of the token registered first. -/
structure Preferred (r : Ready) (rs : List Ready) : Prop where
  mem : r ∈ rs
  longest : ∀ q ∈ rs, q.lexeme.size ≤ r.lexeme.size
  earliest : ∀ q ∈ rs, q.lexeme.size = r.lexeme.size → Tokenizer.RankLe r.rank q.rank

namespace Tokenizer

variable {t u v : Tokenizer σ} {floor here width : Nat} {c : Char}

/-- **The lexemes that end with a unit**: what the candidates give that the
character of the unit ends, those of the tokens registered first in front. -/
def endings (t : Tokenizer σ) (unit : UInt32) : List Ready :=
  let c := leadToChar unit
  let policy := t.policies.get c
  if t.encoding.glyphUnits unit = 0 ∨ policy.ignore = true then []
  else t.active.flatMap fun b =>
    b.ended t.signature t.position c (policy.disallow || policy.terminate) b.live

/-- Behind a last lexeme of a lower rank only a longer one is preferred. -/
theorem preferred_snoc_iff {rs : List Ready} {r : Ready}
    (hranks : (rs ++ [r]).Pairwise fun q r => ¬RankLe r.rank q.rank) :
    Preferred r (rs ++ [r]) ↔ ∀ q ∈ rs ++ [r], q = r ∨ q.lexeme.size < r.lexeme.size := by
  have hlast (q : Ready) (hq : q ∈ rs) : ¬RankLe r.rank q.rank :=
    (List.pairwise_append.1 hranks).2.2 q hq r (List.mem_singleton.2 rfl)
  constructor
  · intro h q hq
    obtain hmem | hmem := List.mem_append.1 hq
    · refine .inr (Nat.lt_of_le_of_ne (h.longest q hq) fun hsize => ?_)
      exact hlast q hmem (h.earliest q hq hsize)
    · exact .inl (List.mem_singleton.1 hmem)
  · intro h
    refine ⟨List.mem_append_right _ (List.mem_singleton.2 rfl), fun q hq => ?_, fun q hq hsize => ?_⟩
    · obtain rfl | hlt := h q hq
      · exact Nat.le_refl _
      · exact Nat.le_of_lt hlt
    · obtain rfl | hlt := h q hq
      · exact (RankLe.total q.rank q.rank).elim id id
      · exact absurd hsize (Nat.ne_of_lt hlt)

/-! ## One bucket at most -/

/-- **A tokenizer that does not interleave**: it has one bucket at most, with
the candidates in the order of their tokens. -/
structure Solitary (t : Tokenizer σ) : Prop where
  mode : t.mode.interleaved = false
  lined : Lined t.active
  active : t.active = [] ∨ ∃ b, t.active = [b]

theorem solitary_of_idle (hmode : t.mode.interleaved = false) (h : t.active = []) : t.Solitary :=
  ⟨hmode, h ▸ lined_nil, .inl h⟩

theorem Treated.solitary {r : Bool} (h : Treated t here width c r u) (ht : t.Solitary)
    (hb : t.Between floor here) : u.Solitary := by
  refine ⟨(congrArg Mode.interleaved h.setupAs.mode).trans ht.mode, h.lined ht.lined hb, ?_⟩
  cases h with
  | trimmed => exact ht.active
  | interrupted => exact ht.active
  | disallowed => exact ht.active
  | ignored => exact ht.active
  | consumed _ _ st hst _ _ hout =>
    have hoffered : (t.offered here c st).active = [] ∨ ∃ b, (t.offered here c st).active = [b] := by
      obtain hidle | ⟨b, hactive⟩ := ht.active
      · rw [hidle] at hst
        rw [hst.of_nil]
        exact .inl rfl
      · rw [hactive] at hst
        obtain ⟨own, -, rfl⟩ := hst.of_singleton
        rw [active_offered_singleton]
        split
        · exact .inl rfl
        · exact .inr ⟨_, rfl⟩
    cases hout with
    | ready => exact hoffered
    | wasted => exact hoffered
    | waiting => exact hoffered
    | unmatched => exact hoffered
    | interrupted => exact hoffered
    | begun _ hidle =>
      have hnone := hidle.resolve_left (by
        rw [show (t.offered here c st).mode = t.mode from rfl, ht.mode]
        exact Bool.false_ne_true)
      unfold begun
      dsimp only
      rw [hnone]
      exact .inr ⟨_, rfl⟩

theorem Obeyed.solitary {command : Command σ} (h : Obeyed t command u) (ht : t.Solitary)
    (hp : t.Placed floor) (hmode : ∀ mode, command = .setMode mode → mode.interleaved = false) :
    u.Solitary := by
  cases h with
  | feed hfed =>
    cases hfed with
    | passed => exact ⟨ht.mode, ht.lined, ht.active⟩
    | led _ lines run _ _ _ htreated =>
      exact htreated.solitary (t := t.tracked lines run) ⟨ht.mode, ht.lined, ht.active⟩
        (hp.held.tracked lines run)
  | finish =>
    refine solitary_of_idle ?_ (active_finished t)
    rw [(setupAs_finished t).mode]
    exact ht.mode
  | rewind => exact solitary_of_idle ht.mode rfl
  | setMode mode => exact ⟨hmode mode rfl, ht.lined, ht.active⟩
  | _ => exact ⟨ht.mode, ht.lined, ht.active⟩

/-! ## The lexeme that is reported -/

/-- A step that looks for the first lexeme is broken off at the last of those
that end. -/
theorem CandidateStep.ready_eq_last {b : Bucket σ} {s : Signature} {terminate : Bool}
    {st : Stepped (Candidate σ)} (h : CandidateStep b s here c terminate true b.live st)
    (hne : b.ended s here c terminate b.live ≠ []) :
    ∃ rs r, b.ended s here c terminate b.live = rs ++ [r] ∧ st.ready = [r] := by
  cases h with
  | through hfirst => exact absurd (Bucket.ended_eq_nil_iff.2 (hfirst rfl)) hne
  | broken front x back hlive _ hback hx hyield =>
    obtain ⟨r, hr⟩ := Bucket.exists_yield_eq_of_ne_nil hyield
    refine ⟨b.ended s here c terminate front, r, ?_, hr⟩
    rw [hlive, Bucket.ended_append, Bucket.ended_cons_of_none hx, hr,
      Bucket.ended_eq_nil_iff.2 hback, List.append_nil]

/-- **The last of the lexemes that end with a unit is reported**, and no
other. -/
theorem Fed.reports_last {unit : UInt32} {r : Bool} (h : Fed t unit r v) (ht : t.Solitary)
    (hp : t.Placed floor) (hselect : t.mode.select = .first) (hne : t.endings unit ≠ []) :
    r = true ∧ ∃ rs q, t.endings unit = rs ++ [q] ∧ v.results = t.results ++ [q] := by
  have hends : ¬(t.encoding.glyphUnits unit = 0 ∨
      (t.policies.get (leadToChar unit)).ignore = true) := by
    intro hnone
    unfold endings at hne
    exact hne (if_pos hnone)
  obtain hidle | ⟨b, hactive⟩ := ht.active
  · unfold endings at hne
    simp [hidle] at hne
  have hended : t.endings unit = b.ended t.signature t.position (leadToChar unit)
      ((t.policies.get (leadToChar unit)).disallow ||
        (t.policies.get (leadToChar unit)).terminate) b.live := by
    unfold endings
    rw [if_neg hends, hactive]
    exact List.append_nil _
  rw [hended] at hne ⊢
  cases h with
  | passed hzero => exact absurd (.inl hzero) hends
  | led _ lines run _ _ _ htreated =>
    have hsignature : (t.tracked lines run).signature = t.signature :=
      signature_tracked_of_live lines run (by rw [hactive]; exact List.cons_ne_nil _ _)
    have hfirst : decide ((t.tracked lines run).mode.select = .first) = true :=
      decide_eq_true hselect
    have hfits : b.Fits (t.tracked lines run).signature := by
      rw [hsignature]
      exact hp.held.fits b (by rw [hactive]; exact List.mem_singleton.2 rfl)
    have hlive := htreated.live (b := b) hactive hfits ht.mode
    cases hlive with
    | ignored hignore => exact absurd (.inr hignore) hends
    | ready _ st hst _ hresults =>
      rw [hfirst, hsignature] at hst
      obtain ⟨rs, q, hlast, hready⟩ := hst.ready_eq_last hne
      refine ⟨rfl, rs, q, hlast, ?_⟩
      rw [hresults, hready]
      rfl
    | wasted _ hst =>
      rw [hfirst, hsignature] at hst
      obtain ⟨rs, q, -, hready⟩ := hst.ready_eq_last hne
      exact nomatch hready
    | onward _ st hst hwhole =>
      rw [hfirst, hsignature] at hst
      cases hst with
      | through hnone => exact absurd (Bucket.ended_eq_nil_iff.2 (hnone rfl)) hne
      | broken => exact nomatch hwhole

/-- **What is reported first is what was registered last.** Let a tokenizer that
looks for the first lexeme, and has never interleaved, be asked for anything else
before. If lexemes end with the next unit, then exactly one of them is reported,
that of the token registered last among them. It is the preferred one, the
longest and among equally long ones that of the token registered first, if and
only if it is longer than each of the others. -/
theorem feed_reports_last {tokens : List (Token σ)} {config : TokenizerConfig}
    (hconfig : config.interleaved = false) {commands : List (Command σ)}
    (hrewind : ∀ place, .rewind place ∈ commands → config.offset ≤ place)
    (hmode : ∀ mode, .setMode mode ∈ commands → mode.interleaved = false)
    {answers : List Answer} (hdrive : (new tokens config).drive commands = .ok (answers, t))
    (hselect : t.mode.select = .first) {unit : UInt32} (hne : t.endings unit ≠ []) :
    ∃ r fed, t.feed unit = .ok (true, fed) ∧ fed.results = t.results ++ [r]
      ∧ (t.endings unit).getLast? = some r
      ∧ (Preferred r (t.endings unit) ↔
          ∀ q ∈ t.endings unit, q = r ∨ q.lexeme.size < r.lexeme.size) := by
  obtain ⟨⟨floor, hp⟩, ht⟩ := drive_new_keeps hrewind (solitary_of_idle hconfig rfl)
    (fun t u floor hp ht command hmem hobeyed =>
      hobeyed.solitary ht hp fun mode hcommand => hmode mode (hcommand ▸ hmem)) hdrive
  obtain ⟨now, fed, hfeed, hfed⟩ := feed_total hp unit
  obtain ⟨rfl, rs, r, hlast, hresults⟩ := hfed.reports_last ht hp hselect hne
  have hranks : (t.endings unit).Pairwise fun q r => ¬RankLe r.rank q.rank := by
    unfold endings
    dsimp only
    split
    · exact List.Pairwise.nil
    · obtain hidle | ⟨b, hactive⟩ := ht.active
      · rw [hidle]
        exact List.Pairwise.nil
      · rw [hactive, List.flatMap_singleton]
        exact Bucket.pairwise_ended
          (ht.lined.ranks b (by rw [hactive]; exact List.mem_singleton.2 rfl))
  rw [hlast] at hranks
  refine ⟨r, fed, hfeed, hresults, ?_, ?_⟩
  · rw [hlast, List.getLast?_concat]
  · rw [hlast]
    exact preferred_snoc_iff hranks

/-- The token of one letter, and behind it that of identifiers. -/
def letterOrName : List (Token MatchState) :=
  [((Token.char 0 'x').lift (fun _ => .plain) MatchState.plain?).toToken,
    ((Token.keyname 1).lift .keyname MatchState.keyname?).toToken]

/-- The letter ends as both with a semicolon, and is reported as an
identifier. -/
theorem feed_letterOrName : ∃ answers t fed q r,
    (new letterOrName { select := .first }).drive [.feed 0x78] = .ok (answers, t)
      ∧ t.mode.select = .first ∧ t.endings 0x3b = [q, r]
      ∧ t.feed 0x3b = .ok (true, fed) ∧ fed.results = t.results ++ [r]
      ∧ q.rank = some 0 ∧ r.rank = some 1 ∧ q.lexeme.size = r.lexeme.size :=
  ⟨_, _, _, _, _, rfl, rfl, rfl, rfl, rfl, rfl, rfl, rfl⟩

theorem feed_reports_last_letterOrName : ∃ answers t,
    (new letterOrName { select := .first }).drive [.feed 0x78] = .ok (answers, t)
      ∧ t.mode.select = .first ∧ t.endings 0x3b ≠ []
      ∧ ∃ r fed, t.feed 0x3b = .ok (true, fed) ∧ fed.results = t.results ++ [r]
        ∧ (t.endings 0x3b).getLast? = some r
        ∧ (Preferred r (t.endings 0x3b) ↔
            ∀ q ∈ t.endings 0x3b, q = r ∨ q.lexeme.size < r.lexeme.size) := by
  obtain ⟨answers, t, -, q, r, hdrive, hselect, hends, -⟩ := feed_letterOrName
  have hne : t.endings 0x3b ≠ [] := by
    rw [hends]
    exact List.cons_ne_nil _ _
  exact ⟨answers, t, hdrive, hselect, hne,
    feed_reports_last rfl (by simp) (by simp) hdrive hselect hne⟩

/-- **The lexeme that is reported need not be the preferred one.** A letter and
an identifier of one letter are equally long, and the letter is registered
first. -/
theorem not_forall_feed_reports_preferred :
    ¬ ∀ (tokens : List (Token MatchState)) (config : TokenizerConfig)
        (commands : List (Command MatchState)) (answers : List Answer)
        (t fed : Tokenizer MatchState) (unit : UInt32) (r : Ready),
      config.interleaved = false → (∀ command ∈ commands, ∃ unit, command = .feed unit) →
        (new tokens config).drive commands = .ok (answers, t) → t.mode.select = .first →
        t.endings unit ≠ [] → t.feed unit = .ok (true, fed) → fed.results = t.results ++ [r] →
        Preferred r (t.endings unit) := by
  intro hall
  obtain ⟨answers, t, fed, q, r, hdrive, hselect, hends, hfeed, hresults, hq, hr, hsize⟩ :=
    feed_letterOrName
  have hpreferred : Preferred r (t.endings 0x3b) := by
    refine hall _ _ _ _ t fed 0x3b r rfl (by simp) hdrive hselect ?_ hfeed hresults
    rw [hends]
    exact List.cons_ne_nil _ _
  rw [hends] at hpreferred
  have hrank := hpreferred.earliest q List.mem_cons_self hsize
  rw [hq, hr] at hrank
  exact absurd (show 1 ≤ 0 from hrank) (by decide)

end Tokenizer

end Lexing
