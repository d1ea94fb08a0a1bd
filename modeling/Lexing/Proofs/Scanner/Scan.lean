import Lexing.Proofs.Tokenizer.Feed
import Lexing.Proofs.Tokenizer.Taken
import Lexing.Scanner

/-!
# Scanning as a sequence of searches

A scan under a fixed set of tokens is told by its tokenizer alone: each search
feeds units until lexemes are ready or the units are used up (`Searched`), the
first of the lexemes is committed, and the next search starts at its end
(`Committed`). A scan meets no fault, whatever the units are, and every search
that finds a lexeme brings it forward (`scanUnits_total`).
-/

namespace Lexing

variable {σ : Type}

namespace Tokenizer

variable {t v : Tokenizer σ} {floor : Nat}

/-- Nothing has begun and nothing waits. -/
structure Fresh (t : Tokenizer σ) : Prop where
  active : t.active = []
  results : t.results = []
  unmatched : t.unmatched = none

theorem fresh_rewind (t : Tokenizer σ) (place : Nat) : (t.rewind place).Fresh := ⟨rfl, rfl, rfl⟩

end Tokenizer

open Tokenizer

/-- **A search**: from a tokenizer and the units before it, to the tokenizer
whose lexemes are taken. -/
inductive Searched : Tokenizer σ → List UInt32 → Tokenizer σ → Prop
  /-- the units are used up -/
  | finished (t : Tokenizer σ) : Searched t [] t.finished
  /-- lexemes are ready -/
  | ready {t v : Tokenizer σ} {unit : UInt32} {rest : List UInt32} (hfed : Fed t unit true v) :
    Searched t (unit :: rest) v
  /-- the search goes on -/
  | onward {t u v : Tokenizer σ} {unit : UInt32} {rest : List UInt32}
    (hfed : Fed t unit false u) (hrest : Searched u rest v) : Searched t (unit :: rest) v

namespace Searched

variable {t v : Tokenizer σ} {units : List UInt32} {floor : Nat}

theorem setupAs (h : Searched t units v) : v.SetupAs t := by
  induction h with
  | finished t => exact setupAs_finished t
  | ready hfed => exact hfed.setupAs
  | onward hfed _ ih => exact ih.trans hfed.setupAs

theorem placed (h : Searched t units v) (ht : t.Placed floor) : v.Placed floor := by
  induction h with
  | finished t => exact ht.finished
  | ready hfed => exact hfed.placed ht
  | onward hfed _ ih => exact ih (hfed.placed ht)

/-- Without units a fresh tokenizer finds nothing. -/
theorem results_of_fresh (h : Searched t [] v) (ht : t.Fresh) : v.results = [] := by
  cases h with
  | finished =>
    rw [results_finished_of_idle ht.active, ht.results, ht.unmatched]
    rfl

end Searched

/-- **A search meets no fault.** -/
theorem search_total {t : Tokenizer σ} {floor : Nat} (h : t.Placed floor) (units : List UInt32) :
    ∃ v, Scanner.search t units = .ok v.take ∧ Searched t units v := by
  induction units generalizing t with
  | nil =>
    refine ⟨t.finished, ?_, .finished t⟩
    simp only [Scanner.search, finish_eq h, bind, Except.bind]
    rfl
  | cons unit rest ih =>
    obtain ⟨r, u, hfeed, hfed⟩ := feed_total h unit
    simp only [Scanner.search, hfeed, bind, Except.bind]
    cases r with
    | true =>
      have hready : (true && !u.results.isEmpty) = true := by
        simpa using hfed.results_ne_nil
      rw [if_pos hready]
      exact ⟨u, rfl, .ready hfed⟩
    | false =>
      rw [Bool.false_and, if_neg Bool.false_ne_true]
      obtain ⟨v, hv, hsearched⟩ := ih (hfed.placed h)
      exact ⟨v, hv, .onward hfed hsearched⟩

/-- **The lexemes of a scan**: from a tokenizer and the units before it. -/
inductive Committed : Tokenizer σ → List UInt32 → List Lexeme → Prop
  /-- nothing more is found -/
  | done {t v : Tokenizer σ} {units : List UInt32} (hsearch : Searched t units v)
    (hnone : v.first? = none) : Committed t units []
  /-- the first lexeme is committed, and the next search starts at its end -/
  | commit {t v : Tokenizer σ} {units : List UInt32} {r : Ready} {n : Nat} {rest : List Lexeme}
    (hsearch : Searched t units v) (hfirst : v.first? = some r)
    (hstop : r.lexeme.stop = t.position + n)
    (hrest : Committed (v.rewind r.lexeme.stop) (units.drop n) rest) :
    Committed t units (r.lexeme :: rest)

namespace Scanner

variable {tokens : List (Token σ)} {s : Scanner σ Unit}

/-- A fixed set of tokens chooses the first of any lexemes. -/
theorem choose_eq_head? (hg : s.grammar = .ofTokens tokens) (lexemes : List Lexeme) :
    s.choose lexemes = lexemes.head? := by
  rw [choose, hg]
  show lexemes[min 0 _]? = _
  rw [Nat.zero_min, ← List.head?_eq_getElem?]

theorem choose_take (hg : s.grammar = .ofTokens tokens) (v : Tokenizer σ) :
    s.choose v.take.1 = v.first?.map (·.lexeme) := by
  rw [choose_eq_head? hg, take, List.head?_map]
  rfl

/-- A fixed set of tokens leaves the tokenizer as the commit has moved it. -/
theorem tokenizer_commit (hg : s.grammar = .ofTokens tokens) {v : Tokenizer σ}
    (hv : v.tokens = tokens) (l : Lexeme) :
    (s.commit v.take.2 l).tokenizer = v.rewind l.stop := by
  rw [commit, hg, ← hv]
  rfl

theorem scanFrom_total (hg : s.grammar = .ofTokens tokens) (htokens : s.tokenizer.tokens = tokens)
    (base : Nat) (units : List UInt32) (next : Nat) (hposition : s.tokenizer.position = base + next)
    (hplaced : s.tokenizer.Placed (base + next)) (hfresh : s.tokenizer.Fresh) :
    ∃ lexemes s', s.scanFrom base units next = .ok (lexemes, s') ∧
      Committed s.tokenizer (units.drop next) lexemes := by
  induction hleft : units.length - next using Nat.strong_induction_on generalizing s next with
  | h left ih =>
    obtain ⟨v, hsearch, hsearched⟩ := search_total hplaced (units.drop next)
    have hv := hsearched.placed hplaced
    rw [scanFrom]
    simp only [hsearch, bind, Except.bind, choose_take hg]
    cases hfirst : v.first? with
    | none => exact ⟨_, _, rfl, .done hsearched hfirst⟩
    | some r =>
      have habove := hv.held.results r (mem_of_first? hfirst)
      have hfloor := habove.floor_le
      have hnonempty := habove.nonempty
      -- a lexeme is found only where units are left, and it ends behind `next`
      have hnext : next < units.length := by
        refine Nat.lt_of_not_le fun hle => ?_
        rw [List.drop_eq_nil_of_le hle] at hsearched
        have hmem := mem_of_first? hfirst
        rw [hsearched.results_of_fresh hfresh] at hmem
        exact absurd hmem List.not_mem_nil
      have hforward : next < units.length ∧ next < r.lexeme.stop - base := by omega
      simp only [Option.map_some, dif_pos hforward]
      have hv' : v.tokens = tokens := hsearched.setupAs.tokens.trans htokens
      have hcommit := tokenizer_commit hg hv' r.lexeme
      have hstop : base + (r.lexeme.stop - base) = r.lexeme.stop := by omega
      have hrewind := placed_rewind hv.lines r.lexeme.stop
        (Nat.le_trans hv.lines.origin_le (by omega))
      obtain ⟨rest, s', hscan, hrest⟩ := ih (units.length - (r.lexeme.stop - base)) (by omega)
        (s := s.commit v.take.2 r.lexeme) hg (by rw [hcommit]; exact hv')
        (r.lexeme.stop - base) (by rw [hcommit, hstop]; rfl) (by rw [hcommit, hstop]; exact hrewind)
        (by rw [hcommit]; exact fresh_rewind v _) rfl
      rw [hscan]
      refine ⟨_, _, rfl, .commit (n := r.lexeme.stop - base - next) hsearched hfirst (by omega) ?_⟩
      rw [List.drop_drop, ← hcommit, Nat.add_sub_cancel' (Nat.le_of_lt hforward.2)]
      exact hrest

/-! ## A scanner at the start -/

/-- A scanner over a fixed set of tokens, with reserved words and policies of
its own. -/
def ofTokens (tokens : List (Token σ)) (config : TokenizerConfig) (reserved : Option Reserved)
    (policies : PolicyTable) : Scanner σ Unit :=
  let s := new (.ofTokens tokens) config
  { s with tokenizer := { s.tokenizer with reserved, policies } }

theorem placed_ofTokens (tokens : List (Token σ)) (config : TokenizerConfig)
    (reserved : Option Reserved) (policies : PolicyTable) :
    (ofTokens tokens config reserved policies).tokenizer.Placed config.offset where
  floor_le := Nat.le_refl _
  lines := ⟨LineTable.ordered_new _ _, Nat.le_refl _, Nat.le_refl _, fun _ h => (nomatch h)⟩
  held := ⟨Signature.within_nil _ _, fun _ h => (nomatch h), fun _ h => (nomatch h),
    fun _ h => (nomatch h), fun _ h => (nomatch h)⟩

/-- **A scan meets no fault**, whatever the units are. -/
theorem scanUnits_total (tokens : List (Token σ)) (config : TokenizerConfig)
    (reserved : Option Reserved) (policies : PolicyTable) (units : List UInt32) :
    ∃ lexemes s', (ofTokens tokens config reserved policies).scanUnits units = .ok (lexemes, s') ∧
      Committed (ofTokens tokens config reserved policies).tokenizer units lexemes :=
  scanFrom_total rfl rfl config.offset units 0 rfl (placed_ofTokens ..) ⟨rfl, rfl, rfl⟩

end Scanner

end Lexing
