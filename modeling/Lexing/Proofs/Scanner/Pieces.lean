import Lexing.Proofs.Numeric.Step
import Lexing.Proofs.Scanner.Cover
import Lexing.Proofs.Scanner.Recoded
import Lexing.Proofs.Tokenizer.Driven

/-!
# Scanning a source in pieces

A scanner may be given a source piece by piece. Between two pieces it ends the
stream, which a scan of the whole source does not do there. That makes no
difference behind a character that is trimmed and that no token accepts
(`Divides`): the character ends every search under way, or else the search has
not begun yet (`FedThrough.fresh_of_divides`). A tokenizer on which nothing has
begun holds nothing to be reported at the end of a piece, and its place, its
lines and the run of line breaks just read all stay for the next one.

So a scan of the whole source is followed along the scan of the first piece, up
to the search that reaches the end of it, and there the scan of the second piece
takes over (`Scanner.scanFrom_resumed`).
-/

namespace Lexing

variable {σ : Type}

/-- **A character that divides**: it is trimmed, and no token accepts it in any
state. -/
structure Divides (P : PolicyTable) (tokens : List (Token σ)) (c : Char) : Prop where
  trim : (P.get (toAscii c)).trim = true
  ignore : (P.get (toAscii c)).ignore = false
  refused : ∀ token ∈ tokens, ∀ st seen, token.advance st seen (toAscii c) = none

/-- A numeric token refuses what is neither one of its own characters nor one
of those chosen for it. -/
theorem Numeric.advance_eq_none {config : NumericConfig} {c : Char}
    (htaken : c ∉ NumericConfig.takenChars) (hseparator : c ≠ config.separator)
    (hfraction : c ≠ config.fraction) (id : Nat) (st : Numeric.Progress) (seen : List Char) :
    (Token.numeric config id).advance st seen c = none := by
  have hnone : ((machine config).openTargets st).find?
      (fun target => (machine config).canEnter target st seen c) = none := by
    refine List.find?_eq_none.2 fun target _ henter => ?_
    obtain hmark | ⟨-, h⟩ | ⟨-, h⟩ := mem_marks_of_canEnter henter
    · exact htaken (marks_subset _ _ c hmark)
    · exact hseparator h
    · exact hfraction h
  show Option.map _ _ = none
  rw [hnone]
  rfl

open Tokenizer

/-! ## A search that reaches the end of a piece -/

namespace Tokenizer

variable {t u v : Tokenizer σ} {floor : Nat} {c : Char} {tokens : List (Token σ)}

/-- A tokenizer in the middle of a search without interleaving. -/
structure UnderWay (t : Tokenizer σ) (tokens : List (Token σ)) (P : PolicyTable) (e : Encoding)
    (floor : Nat) : Prop where
  placed : t.Placed floor
  moored : t.Moored
  supplied : t.Supplied tokens
  mode : t.mode.interleaved = false
  policies : t.policies = P
  encoding : t.encoding = e

variable {P : PolicyTable} {e : Encoding}

theorem Fed.underWay {unit : UInt32} (h : Fed t unit false v) (ht : t.UnderWay tokens P e floor) :
    v.UnderWay tokens P e floor where
  placed := h.placed ht.placed
  moored := (h.moored ht.moored ht.placed ht.mode).1 rfl
  supplied := h.supplied ht.supplied ht.placed
  mode := (congrArg Mode.interleaved h.setupAs.mode).trans ht.mode
  policies := h.setupAs.policies.trans ht.policies
  encoding := h.setupAs.encoding.trans ht.encoding

/-- **Behind a character that divides nothing has begun**, unless it has ended
the search. -/
theorem Fed.fresh_of_divides {unit : UInt32} (h : Fed t unit false v)
    (ht : t.UnderWay tokens P e floor) (hunit : e.Leads unit c) (hc : Divides P tokens c) :
    v.Fresh := by
  obtain ⟨htrim, hignore, hrefused⟩ := hc
  rw [← ht.policies] at htrim hignore
  cases h with
  | passed hzero =>
    have hpos := e.unitLen_pos c
    rw [ht.encoding, hunit.glyphUnits_eq] at hzero
    omega
  | led _ lines run _ _ _ htreated =>
    rw [hunit.leadToChar_eq] at htreated
    have hheld := ht.placed.held.tracked lines run
    cases ht.moored with
    | idle hactive hresults =>
      cases htreated.idle hactive hresults (signature_tracked_of_idle lines run hactive) with
      | trimmed _ hrun hv => exact hv ▸ ⟨hactive, hresults, hrun⟩
      | ignored hno => exact Bool.noConfusion (hno.symm.trans htrim)
      | unmatched hno => exact Bool.noConfusion (hno.symm.trans htrim)
      | begun hno => exact Bool.noConfusion (hno.symm.trans htrim)
    | live b hactive =>
      have hmem : b ∈ (t.tracked lines run).active := by simp [tracked, Tokenizer.step, hactive]
      cases htreated.live hactive (hheld.fits b hmem) ht.mode with
      | ignored hyes => exact Bool.noConfusion (hyes.symm.trans hignore)
      | onward _ st hst hwhole hkept =>
        -- a candidate that goes on would have accepted the character
        obtain ⟨y, hy⟩ := List.exists_mem_of_ne_nil _ hkept
        obtain ⟨hstopped, -⟩ | ⟨x, hx, hxy⟩ := hst.kept_from hy
        · exact Bool.noConfusion (hstopped.symm.trans hwhole)
        · obtain ⟨-, st', hadvance, -⟩ := Candidate.offered_eq_some_iff.1 hxy
          rw [hrefused _ (ht.supplied.live b hmem x hx)] at hadvance
          cases hadvance

/-- **Units that go by** without ending a search. -/
inductive FedThrough : Tokenizer σ → List UInt32 → Tokenizer σ → Prop
  | nil (t : Tokenizer σ) : FedThrough t [] t
  | cons {t u v : Tokenizer σ} {unit : UInt32} {rest : List UInt32} (hfed : Fed t unit false u)
    (hrest : FedThrough u rest v) : FedThrough t (unit :: rest) v

namespace FedThrough

variable {units : List UInt32}

theorem underWay (h : FedThrough t units v) (ht : t.UnderWay tokens P e floor) :
    v.UnderWay tokens P e floor := by
  induction h with
  | nil => exact ht
  | cons hfed _ ih => exact ih (hfed.underWay ht)

theorem setupAs (h : FedThrough t units v) : v.SetupAs t := by
  induction h with
  | nil => exact ⟨rfl, rfl, rfl, rfl, rfl⟩
  | cons hfed _ ih => exact ih.trans hfed.setupAs

theorem position_eq (h : FedThrough t units v) : v.position = t.position + units.length := by
  induction h with
  | nil => rfl
  | cons hfed _ ih => rw [ih, hfed.position_eq, List.length_cons, Nat.add_assoc, Nat.add_comm 1]

theorem split {front back : List UInt32} (h : FedThrough t (front ++ back) v) :
    ∃ u, FedThrough t front u ∧ FedThrough u back v := by
  induction front generalizing t with
  | nil => exact ⟨t, .nil t, h⟩
  | cons unit front ih =>
    cases h with
    | cons hfed hrest =>
      obtain ⟨u, hfront, hback⟩ := ih hrest
      exact ⟨u, .cons hfed hfront, hback⟩

/-- Units that lead nothing begin nothing. -/
theorem fresh (h : FedThrough t units v) (ht : t.Fresh)
    (hunits : ∀ unit ∈ units, t.encoding.glyphUnits unit = 0) : v.Fresh := by
  induction h with
  | nil => exact ht
  | cons hfed _ ih =>
    obtain ⟨hunit, hunits⟩ := List.forall_mem_cons.1 hunits
    cases hfed with
    | led hlead => exact absurd hunit hlead
    | passed => exact ih ⟨ht.active, ht.results, ht.unmatched⟩ hunits

/-- **At the end of a piece nothing has begun.** -/
theorem fresh_of_divides {text : List Char} (h : FedThrough t (text.flatMap e.encodeChar) v)
    (ht : t.UnderWay tokens P e floor) (hfresh : t.Fresh)
    (hcut : ∀ c, text.getLast? = some c → Divides P tokens c) : v.Fresh := by
  obtain rfl | ⟨front, c, rfl⟩ := List.eq_nil_or_concat text
  · cases h with
    | nil => exact hfresh
  · rw [List.concat_eq_append] at h hcut
    rw [List.flatMap_append, List.flatMap_singleton] at h
    obtain ⟨lead, conts, hunits, hlead, -, hconts⟩ := e.exists_glyph c
    rw [hunits] at h
    obtain ⟨w, hfront, hlast⟩ := h.split
    have hw := hfront.underWay ht
    cases hlast with
    | cons hfed hrest =>
      have hv := hfed.fresh_of_divides hw hlead (hcut c (by simp))
      refine hrest.fresh hv ?_
      rwa [(hfed.underWay hw).encoding]

end FedThrough

/-! ## Searching on behind the end of a piece -/

/-- **A search is decided by the units of a piece**, or else they go by and it
is that of the tokenizer behind them. -/
theorem search_through (h : t.Placed floor) (units : List UInt32) :
    (∃ v, v.results ≠ [] ∧ Searched t units v ∧
      ∀ rest, Scanner.search t (units ++ rest) = .ok v.take) ∨
    ∃ u, FedThrough t units u ∧
      ∀ rest, Scanner.search t (units ++ rest) = Scanner.search u rest := by
  induction units generalizing t with
  | nil => exact .inr ⟨t, .nil t, fun _ => rfl⟩
  | cons unit units ih =>
    obtain ⟨r, u, hfeed, hfed⟩ := feed_total h unit
    cases r with
    | true =>
      refine .inl ⟨u, hfed.results_ne_nil, .ready hfed, fun rest => ?_⟩
      simp [Scanner.search, hfeed, hfed.results_ne_nil, bind, Except.bind, pure, Except.pure]
    | false =>
      have hstep (rest : List UInt32) : Scanner.search t (unit :: units ++ rest)
          = Scanner.search u (units ++ rest) := by
        simp [Scanner.search, hfeed, bind, Except.bind]
      obtain ⟨v, hne, hsearched, hsearch⟩ | ⟨v, hthrough, hsearch⟩ := ih (hfed.placed h)
      · exact .inl ⟨v, hne, .onward hfed hsearched, fun rest => (hstep rest).trans (hsearch rest)⟩
      · exact .inr ⟨v, .cons hfed hthrough, fun rest => (hstep rest).trans (hsearch rest)⟩

/-- The end of the stream changes next to nothing on a tokenizer on which
nothing has begun. -/
theorem finished_of_fresh (h : t.Fresh) : t.finished = { t with signature := [] } := by
  obtain ⟨hactive, hresults, hrun⟩ := h
  simp [finished, covered, settled, hactive, hresults, hrun]

theorem take_of_fresh (h : t.Fresh) : t.take = ([], t) := by
  have hsame : { t with results := [] } = t := by rw [← h.results]
  rw [take, hsame, h.results, List.mergeSort_nil, List.map_nil]

/-- What it may change is cleared before it is next read. -/
theorem search_of_idle (h : t.active = []) (units : List UInt32) :
    Scanner.search { t with signature := [] } units = Scanner.search t units := by
  cases units with
  | nil => rw [Scanner.search, Scanner.search, ← Abreast.finish_of_idle h]
  | cons unit rest =>
    have hstep : Tokenizer.step { t with signature := [] } = t.step := by simp [Tokenizer.step, h]
    rw [Scanner.search, Scanner.search, Tokenizer.feed, Tokenizer.feed, hstep]

end Tokenizer

/-! ## Scanning on behind the end of a piece -/

namespace Scanner

variable {tokens : List (Token σ)} {P : PolicyTable} {e : Encoding} {s : Scanner σ Unit}
  {v : Tokenizer σ} {base next : Nat} {units : List UInt32}

/-- A scan ends with a search that finds nothing. -/
theorem scanFrom_of_none (hg : s.grammar = .ofTokens tokens)
    (hsearch : search s.tokenizer (units.drop next) = .ok v.take) (hnone : v.first? = none) :
    s.scanFrom base units next = .ok ([], { s with tokenizer := v.take.2 }) := by
  rw [scanFrom]
  simp only [hsearch, bind, Except.bind, choose_take hg, hnone]
  rfl

/-- A search that finds lexemes commits the first, and the scan goes on behind
it. -/
theorem scanFrom_of_some (hg : s.grammar = .ofTokens tokens)
    (hsearch : search s.tokenizer (units.drop next) = .ok v.take) {r : Ready}
    (hfirst : v.first? = some r) (hforward : next < units.length ∧ next < r.lexeme.stop - base)
    {rest : List Lexeme} {s' : Scanner σ Unit}
    (hrest : (s.commit v.take.2 r.lexeme).scanFrom base units (r.lexeme.stop - base)
      = .ok (rest, s')) :
    s.scanFrom base units next = .ok (r.lexeme :: rest, s') := by
  rw [scanFrom]
  simp only [hsearch, bind, Except.bind, choose_take hg, hfirst, Option.map_some, dif_pos hforward,
    hrest]
  rfl

/-- **A scan is resumed** with some units behind others: if the next search
comes to the same, so does the whole scan. -/
theorem scanFrom_resumed {u : Tokenizer σ} {front : List UInt32} {place n m : Nat}
    {x : List Lexeme × Scanner σ Unit} (hplace : place = base + front.length)
    (hn : n ≤ front.length + m)
    (hsearch : search s.tokenizer ((front ++ units).drop n) = search u (units.drop m))
    (h : { s with tokenizer := u }.scanFrom place units m = .ok x) :
    s.scanFrom base (front ++ units) n = .ok x := by
  subst hplace
  induction hleft : units.length - m using Nat.strong_induction_on generalizing s u n m x with
  | h left ih =>
    rw [scanFrom] at h ⊢
    rw [hsearch]
    cases hfound : search u (units.drop m) with
    | error fault => simp [hfound, bind, Except.bind] at h
    | ok p =>
      have hchoose : ({ s with tokenizer := u } : Scanner σ Unit).choose p.1 = s.choose p.1 := rfl
      simp only [hfound, bind, Except.bind, hchoose] at h ⊢
      cases hl : s.choose p.1 with
      | none => simpa only [hl] using h
      | some l =>
        simp only [hl] at h ⊢
        split at h
        next hforward =>
          -- behind the lexeme both have the same units before them
          have hstop : l.stop - base = front.length + (l.stop - (base + front.length)) := by omega
          have hdrop : (front ++ units).drop (l.stop - base)
              = units.drop (l.stop - (base + front.length)) := by
            rw [hstop, ← List.drop_drop, List.drop_left]
          have hahead : n < (front ++ units).length ∧ n < l.stop - base := by
            rw [List.length_append]
            omega
          rw [dif_pos hahead]
          have hcommit : ({ s with tokenizer := u } : Scanner σ Unit).commit p.2 l
              = s.commit p.2 l := rfl
          rw [hcommit] at h
          cases hrest : (s.commit p.2 l).scanFrom (base + front.length) units
              (l.stop - (base + front.length)) with
          | error fault => simp [hrest] at h
          | ok y =>
            have hlater := ih (units.length - (l.stop - (base + front.length))) (by omega)
              (s := s.commit p.2 l) (u := (s.commit p.2 l).tokenizer) (Nat.le_of_eq hstop)
              (by rw [hdrop]) hrest rfl
            simpa only [hrest, hlater] using h
        next => exact nomatch h

/-- **A scanner at rest** between two searches without interleaving. -/
structure AtRest (tokens : List (Token σ)) (P : PolicyTable) (e : Encoding) (s : Scanner σ Unit) :
    Prop where
  grammar : s.grammar = .ofTokens tokens
  tokens : s.tokenizer.tokens = tokens
  mode : s.tokenizer.mode.interleaved = false
  policies : s.tokenizer.policies = P
  encoding : s.tokenizer.encoding = e
  fresh : s.tokenizer.Fresh
  placed : s.tokenizer.Placed s.tokenizer.position

namespace AtRest

theorem underWay (h : AtRest tokens P e s) :
    s.tokenizer.UnderWay tokens P e s.tokenizer.position where
  placed := h.placed
  moored := .idle h.fresh.active h.fresh.results
  supplied :=
    { tokens := fun _ ht => h.tokens ▸ ht
      live := fun b hb => by simp [h.fresh.active] at hb
      results := fun r hr => by simp [h.fresh.results] at hr }
  mode := h.mode
  policies := h.policies
  encoding := h.encoding

/-- It may be given any other units. -/
theorem scanUnits_total (h : AtRest tokens P e s) (units : List UInt32) :
    ∃ lexemes s', s.scanUnits units = .ok (lexemes, s') := by
  obtain ⟨lexemes, s', hscan, -⟩ :=
    scanFrom_total h.grammar h.tokens s.tokenizer.position units 0 rfl h.placed h.fresh
  exact ⟨lexemes, s', hscan⟩

/-- **A commit** leaves a scanner at rest behind the lexeme. -/
theorem commit (h : AtRest tokens P e s) (hsearched : Searched s.tokenizer units v) {l : Lexeme}
    (hl : l ∈ v.take.1) : AtRest tokens P e (s.commit v.take.2 l) := by
  have hsetup := hsearched.setupAs
  have hv := hsearched.placed h.placed
  have hcommit := tokenizer_commit h.grammar (hsetup.tokens.trans h.tokens) l
  refine ⟨h.grammar, ?_, ?_, ?_, ?_, ?_, ?_⟩ <;> rw [hcommit]
  · exact hsetup.tokens.trans h.tokens
  · exact (congrArg Mode.interleaved hsetup.mode).trans h.mode
  · exact hsetup.policies.trans h.policies
  · exact hsetup.encoding.trans h.encoding
  · exact fresh_rewind v l.stop
  · exact placed_rewind hv.lines l.stop (hv.origin_le_of_taken hl)

/-- **The end of a piece** leaves a scanner at rest, too, if nothing has begun
there. -/
theorem finish (h : AtRest tokens P e s) (hthrough : FedThrough s.tokenizer units v)
    (hv : v.Fresh) : AtRest tokens P e { s with tokenizer := { v with signature := [] } } where
  grammar := h.grammar
  tokens := hthrough.setupAs.tokens.trans h.tokens
  mode := (congrArg Mode.interleaved hthrough.setupAs.mode).trans h.mode
  policies := hthrough.setupAs.policies.trans h.policies
  encoding := hthrough.setupAs.encoding.trans h.encoding
  fresh := ⟨hv.active, hv.results, hv.unmatched⟩
  placed := by
    have hplaced := (hthrough.underWay h.underWay).placed
    refine ⟨Nat.le_refl _, ⟨hplaced.lines.ordered, ?_, hplaced.lines.lastStart_le,
      hplaced.lines.newlineRun⟩, ⟨Signature.within_nil _ _, ?_, ?_, ?_, ?_⟩⟩
    · exact Nat.le_trans hplaced.lines.origin_le hplaced.floor_le
    · exact fun b hb => by simp [hv.active] at hb
    · exact fun run hrun => by simp [hv.unmatched] at hrun
    · exact fun run hrun => by simp [hv.unmatched] at hrun
    · exact fun r hr => by simp [hv.results] at hr

end AtRest

/-- **A scan of a piece that may be resumed**: whatever units follow, scanning
them next gives the rest of the scan of both. -/
structure Joins (s : Scanner σ Unit) (base : Nat) (piece : List UInt32) (next : Nat)
    (lexemes : List Lexeme) (s' : Scanner σ Unit) : Prop where
  alone : s.scanFrom base piece next = .ok (lexemes, s')
  whole : ∀ units rest s'', s'.scanUnits units = .ok (rest, s'') →
    s.scanFrom base (piece ++ units) next = .ok (lexemes ++ rest, s'')

namespace Joins

variable {piece : List UInt32} {lexemes : List Lexeme} {s' : Scanner σ Unit}

/-- A lexeme that is found in the piece is committed by both scans. -/
theorem found (hg : s.grammar = .ofTokens tokens)
    (hsearch : ∀ units, search s.tokenizer (piece.drop next ++ units) = .ok v.take) {r : Ready}
    (hfirst : v.first? = some r) (hforward : next < piece.length ∧ next < r.lexeme.stop - base)
    (h : (s.commit v.take.2 r.lexeme).Joins base piece (r.lexeme.stop - base) lexemes s') :
    s.Joins base piece next (r.lexeme :: lexemes) s' where
  alone := by
    have hfound := hsearch []
    rw [List.append_nil] at hfound
    exact scanFrom_of_some hg hfound hfirst hforward h.alone
  whole units rest s'' hresume := by
    have hfound := hsearch units
    rw [← List.drop_append_of_le_length (Nat.le_of_lt hforward.1)] at hfound
    refine scanFrom_of_some hg hfound hfirst ⟨?_, hforward.2⟩ (h.whole units rest s'' hresume)
    rw [List.length_append]
    exact Nat.lt_add_right _ hforward.1

/-- A search that reaches the end of the piece is resumed with the units that
follow. -/
theorem ended (h : AtRest tokens P e s) (hthrough : FedThrough s.tokenizer (piece.drop next) v)
    (hv : v.Fresh)
    (hsearch : ∀ units, search s.tokenizer (piece.drop next ++ units) = search v units)
    (hposition : s.tokenizer.position = base + next) (hnext : next ≤ piece.length) :
    s.Joins base piece next [] { s with tokenizer := { v with signature := [] } } where
  alone := by
    have hend := hsearch []
    rw [List.append_nil, search, finish_eq (hthrough.underWay h.underWay).placed,
      finished_of_fresh hv] at hend
    have hnone : s.scanFrom base piece next = _ :=
      scanFrom_of_none h.grammar hend (first?_eq_none_iff.2 hv.results)
    rwa [take_of_fresh (h.finish hthrough hv).fresh] at hnone
  whole units rest s'' hresume := by
    have hstop : v.position = base + piece.length := by
      rw [hthrough.position_eq, hposition, List.length_drop]
      omega
    refine scanFrom_resumed hstop (Nat.le_add_right_of_le hnext) ?_ hresume
    rw [List.drop_append_of_le_length hnext, hsearch, search_of_idle hv.active, List.drop_zero]

end Joins

/-- **A piece is scanned to its end**, and what follows it may be scanned
next. -/
theorem AtRest.joins {front text : List Char} (h : AtRest tokens P e s)
    (hposition : s.tokenizer.position = base + e.size front)
    (hcut : ∀ c, text.getLast? = some c → Divides P tokens c) :
    ∃ lexemes s', AtRest tokens P e s' ∧
      s.Joins base ((front ++ text).flatMap e.encodeChar) (e.size front) lexemes s' := by
  induction hleft : text.length using Nat.strong_induction_on generalizing s front text with
  | h left ih =>
    have hlength := e.length_flatMap_encodeChar (front ++ text)
    have hdrop := e.drop_flatMap_encodeChar front text
    obtain ⟨v, hne, hsearched, hsearch⟩ | ⟨v, hthrough, hsearch⟩ :=
      search_through h.placed (text.flatMap e.encodeChar)
    · obtain ⟨r, hfirst⟩ := Option.ne_none_iff_exists'.1 fun h => hne (first?_eq_none_iff.1 h)
      have hpieces := (hsearched.text h.encoding text).pieces (o := s.tokenizer.position)
        (.of_fresh h.fresh) h.placed h.encoding h.policies h.mode rfl
      obtain ⟨gap, mid, rest, rfl, hmid, -, -, hstop, -⟩ := hpieces.2 r (mem_of_first? hfirst)
      have hpos := e.size_pos_of_ne_nil hmid
      have hsize := e.size_append gap mid
      have hmiddle := e.size_append front (gap ++ mid)
      have hbehindPosition : (s.commit v.take.2 r.lexeme).tokenizer.position
          = base + e.size (front ++ (gap ++ mid)) := by
        rw [tokenizer_commit h.grammar (hsearched.setupAs.tokens.trans h.tokens) r.lexeme]
        show r.lexeme.stop = _
        omega
      have hcutRest : ∀ c, rest.getLast? = some c → Divides P tokens c := fun c hc =>
        hcut c (by simp [hc])
      -- the lexeme is a piece of the text, so the rest of it is shorter
      have hshorter : rest.length < left := by
        have hlength := List.length_pos_of_ne_nil hmid
        simp only [List.length_append] at hleft
        omega
      obtain ⟨lexemes, s', hrest, hjoins⟩ := ih rest.length hshorter
        (h.commit hsearched (mem_take.2 ⟨r, mem_of_first? hfirst, rfl⟩)) hbehindPosition hcutRest
        rfl
      have hbehind : e.size (front ++ (gap ++ mid)) = r.lexeme.stop - base := by omega
      rw [List.append_assoc front, hbehind] at hjoins
      refine ⟨r.lexeme :: lexemes, s', hrest, .found h.grammar ?_ hfirst ?_ hjoins⟩
      · rwa [hdrop]
      · rw [hlength, ← List.append_assoc, Encoding.size_append]
        omega
    · have hv := hthrough.fresh_of_divides h.underWay h.fresh hcut
      rw [← hdrop] at hthrough hsearch
      refine ⟨[], _, h.finish hthrough hv, .ended h hthrough hv hsearch hposition ?_⟩
      rw [hlength, Encoding.size_append]
      exact Nat.le_add_right _ _

theorem atRest_ofTokens (tokens : List (Token σ)) (config : TokenizerConfig)
    (reserved : Option Reserved) (policies : PolicyTable) (hmode : config.interleaved = false) :
    AtRest tokens policies config.encoding (ofTokens tokens config reserved policies) where
  grammar := rfl
  tokens := rfl
  mode := hmode
  policies := rfl
  encoding := rfl
  fresh := ⟨rfl, rfl, rfl⟩
  placed := placed_ofTokens tokens config reserved policies

end Scanner

/-- **Scanning in pieces is scanning at once**: behind a character that divides,
a scanner without interleaving that is given one source and then another
commits what it would commit on both together. -/
theorem scan_append (tokens : List (Token σ)) (config : TokenizerConfig)
    (reserved : Option Reserved) (policies : PolicyTable) (first second : String)
    (hmode : config.interleaved = false)
    (hcut : ∀ c, first.toList.getLast? = some c → Divides policies tokens c) :
    ∃ lexemes s lexemes' s',
      (Scanner.ofTokens tokens config reserved policies).scan first = .ok (lexemes, s) ∧
      s.scan second = .ok (lexemes', s') ∧
      (Scanner.ofTokens tokens config reserved policies).scan (first ++ second)
        = .ok (lexemes ++ lexemes', s') := by
  have hstart := Scanner.atRest_ofTokens tokens config reserved policies hmode
  have hposition : (Scanner.ofTokens tokens config reserved policies).tokenizer.position
      = config.offset + config.encoding.size [] := rfl
  obtain ⟨lexemes, s, hs, hjoins⟩ := hstart.joins hposition hcut
  obtain ⟨lexemes', s', hsecond⟩ := hs.scanUnits_total (config.encoding.units second)
  refine ⟨lexemes, s, lexemes', s', ?_, ?_, ?_⟩
  · show Scanner.scanFrom _ _ (config.encoding.units first) 0 = _
    rw [config.encoding.units_eq_flatMap]
    exact hjoins.alone
  · show s.scanUnits (s.tokenizer.encoding.units second) = _
    rw [hs.encoding]
    exact hsecond
  · show Scanner.scanFrom _ _ (config.encoding.units (first ++ second)) 0 = _
    rw [config.encoding.units_eq_flatMap, String.toList_append, List.flatMap_append,
      ← config.encoding.units_eq_flatMap second]
    exact hjoins.whole _ _ _ hsecond

/-- A cut inside a run of line breaks. -/
theorem scan_append_numeric : ({} : TokenizerConfig).interleaved = false ∧
    (∀ c, "é1_0\n".toList.getLast? = some c →
      Divides PolicyTable.standard [(Token.numeric {} 0).toToken] c) ∧
    ∃ lexemes s lexemes' s',
      (Scanner.ofTokens [(Token.numeric {} 0).toToken] {} none .standard).scan "é1_0\n"
        = .ok (lexemes, s) ∧
      s.scan "\n2u" = .ok (lexemes', s') ∧
      (Scanner.ofTokens [(Token.numeric {} 0).toToken] {} none .standard).scan
        ("é1_0\n" ++ "\n2u") = .ok (lexemes ++ lexemes', s') := by
  have hcut : ∀ c, "é1_0\n".toList.getLast? = some c →
      Divides PolicyTable.standard [(Token.numeric {} 0).toToken] c := by
    intro c hc
    obtain rfl : '\n' = c := Option.some.inj hc
    refine ⟨by decide +kernel, by decide +kernel, fun token htoken => ?_⟩
    obtain rfl := List.mem_singleton.1 htoken
    exact Numeric.advance_eq_none (by decide) (by decide) (by decide) 0
  exact ⟨rfl, hcut, scan_append _ {} none _ "é1_0\n" "\n2u" rfl hcut⟩

end Lexing
