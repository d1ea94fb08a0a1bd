import Lexing.Proofs.Scanner.Scan

/-!
# A scan always moves forward

Whenever a scan commits a lexeme it goes back to the end of it, and the units
behind that end are fed again. A scanner checks that this has brought it
forward, and stops with a fault if it has not. So that a scan meets no fault
says more than that it ends: its loop ends without the check as well. That loop
is told here turn by turn (`turn`, `EndsAfter`), and the units that are left at
each commit bound its turns (`endsAfter_of_scanFrom`).

The committed lexemes lie one behind the other, and none of them is empty
(`Committed.forward`), so there are at most as many of them as units
(`scanUnits_moves_forward`).
-/

namespace Lexing

variable {σ S : Type}

namespace Scanner

open Tokenizer (take_eq_nil_iff)

/-! ## The loop, turn by turn -/

/-- What ready lexemes come to: one of them is committed, and the next unit is
the one behind it. -/
def settle (s : Scanner σ S) (t : Tokenizer σ) (base next : Nat) :
    List Lexeme × Scanner σ S × Nat :=
  match s.choose t.take.1 with
  | none => ([], { s with tokenizer := t.take.2 }, next)
  | some l => ([l], s.commit t.take.2 l, l.stop - base)

/-- **One turn of a scan**: the next unit is fed, or the tokenizer is finished
behind the last one, which ends the scan if nothing is left. The first unit
stands at `base`. -/
def turn (s : Scanner σ S) (base : Nat) (units : List UInt32) (next : Nat) :
    Except Fault (Option (List Lexeme × Scanner σ S × Nat)) :=
  match units[next]? with
  | some unit => (s.tokenizer.feed unit).map fun (ready, t) =>
    some (if ready then s.settle t base (next + 1)
      else ([], { s with tokenizer := t }, next + 1))
  | none => s.tokenizer.finish.map fun (ready, t) =>
    if ready then some (s.settle t base next) else none

/-- **The loop of a scan ends** after some turns, and these are the lexemes
that it commits. -/
inductive EndsAfter (base : Nat) (units : List UInt32) :
    Scanner σ S → Nat → Nat → List Lexeme → Prop
  | now {s : Scanner σ S} {next : Nat} (hturn : s.turn base units next = .ok none) :
    EndsAfter base units s next 1 []
  | later {s s' : Scanner σ S} {next next' turns : Nat} {own rest : List Lexeme}
    (hturn : s.turn base units next = .ok (some (own, s', next')))
    (hrest : EndsAfter base units s' next' turns rest) :
    EndsAfter base units s next (turns + 1) (own ++ rest)

variable {s : Scanner σ S} {t v : Tokenizer σ} {base next turns : Nat} {units : List UInt32}
  {lexemes : List Lexeme}

/-- A grammar may choose only if there is something to choose from. -/
theorem choose_eq_none_iff : s.choose lexemes = none ↔ lexemes = [] := by
  rw [choose, List.getElem?_eq_none_iff]
  constructor
  · intro h
    by_contra hne
    have hpos := List.length_pos_of_ne_nil hne
    omega
  · rintro rfl
    exact Nat.zero_le _

/-- Without lexemes nothing is settled. -/
theorem settle_of_results (h : t.results = []) :
    s.settle t base next = ([], { s with tokenizer := t }, next) := by
  have htake : t.take.2 = t := by rw [Tokenizer.take, ← h]
  rw [settle, choose_eq_none_iff.2 (take_eq_nil_iff.2 h), htake]

theorem settle_of_results_ne_nil (h : t.results ≠ []) :
    some (s.settle t base next)
      = (s.choose t.take.1).map fun l => ([l], s.commit t.take.2 l, l.stop - base) := by
  rw [settle]
  cases hchoose : s.choose t.take.1 with
  | none => exact absurd (take_eq_nil_iff.1 (choose_eq_none_iff.1 hchoose)) h
  | some l => rfl

/-- Finishing tells whether lexemes wait. -/
theorem ready_of_finish {r : Bool} (h : t.finish = .ok (r, v)) : r = !v.results.isEmpty := by
  have hlast (w : Tokenizer σ) (h : (w.flushUnmatched.bind fun p =>
      .ok (!p.2.results.isEmpty, { p.2 with signature := [] })) = .ok (r, v)) :
      r = !v.results.isEmpty := by
    obtain ⟨p, -, h⟩ := exists_of_bind_eq_ok h
    obtain ⟨rfl, rfl⟩ := Prod.mk.inj (Except.ok.inj h)
    rfl
  rw [Tokenizer.finish] at h
  obtain ⟨ready, -, h⟩ := exists_of_bind_eq_ok h
  dsimp only at h
  split at h
  · obtain ⟨w, -, h⟩ := exists_of_bind_eq_ok h
    exact hlast w h
  · exact hlast _ h

/-- **A search is a piece of the loop**: turns that commit nothing, and then one
that commits what the grammar chooses, or ends the scan. -/
theorem exists_last_turn (base : Nat)
    (hsearch : search s.tokenizer (units.drop next) = .ok (lexemes, v)) :
    ∃ t n, n ≤ units.length - next ∧
      (∀ turns rest, EndsAfter base units { s with tokenizer := t } (next + n) turns rest →
        EndsAfter base units s next (turns + n) rest) ∧
      Scanner.turn { s with tokenizer := t } base units (next + n)
        = .ok ((s.choose lexemes).map fun l => ([l], s.commit v l, l.stop - base)) := by
  induction hleft : units.drop next generalizing s next with
  | nil =>
    have hnone : units[next]? = none := List.getElem?_eq_none (List.drop_eq_nil_iff.1 hleft)
    refine ⟨s.tokenizer, 0, Nat.zero_le _, fun turns rest h => h, ?_⟩
    rw [hleft, search] at hsearch
    obtain ⟨⟨r, w⟩, hfinish, hsearch⟩ := exists_of_bind_eq_ok hsearch
    have htake : w.take = (lexemes, v) := Except.ok.inj hsearch
    obtain rfl : w.take.1 = lexemes := congrArg Prod.fst htake
    obtain rfl : w.take.2 = v := congrArg Prod.snd htake
    rw [turn, Nat.add_zero, hnone]
    simp only [hfinish, ready_of_finish hfinish, Except.map]
    by_cases hresults : w.results = []
    · rw [choose_eq_none_iff.2 (take_eq_nil_iff.2 hresults), hresults]
      rfl
    · rw [← settle_of_results_ne_nil hresults, if_pos (by simpa using hresults)]
  | cons unit rest ih =>
    have hunit : units[next]? = some unit := by
      rw [← Nat.add_zero next, ← List.getElem?_drop, hleft]
      rfl
    have hlt := (List.getElem?_eq_some_iff.1 hunit).1
    have hrest : units.drop (next + 1) = rest := by
      rw [List.drop_add_one_eq_tail_drop, hleft]
      rfl
    rw [hleft, search] at hsearch
    obtain ⟨⟨r, w⟩, hfeed, hsearch⟩ := exists_of_bind_eq_ok hsearch
    replace hsearch : (if (r && !w.results.isEmpty) = true then .ok w.take else search w rest)
        = .ok (lexemes, v) := hsearch
    have hturn : s.turn base units next = .ok (some (if r then s.settle w base (next + 1)
        else ([], { s with tokenizer := w }, next + 1))) := by
      rw [turn, hunit]
      simp only [hfeed]
      rfl
    by_cases hready : r = true ∧ w.results ≠ []
    · -- the search is over, and the loop settles what it has found
      obtain ⟨rfl, hresults⟩ := hready
      have htake : w.take = (lexemes, v) := by
        have hnonempty : (true && !w.results.isEmpty) = true := by simpa using hresults
        rw [if_pos hnonempty] at hsearch
        exact Except.ok.inj hsearch
      obtain rfl : w.take.1 = lexemes := congrArg Prod.fst htake
      obtain rfl : w.take.2 = v := congrArg Prod.snd htake
      refine ⟨s.tokenizer, 0, Nat.zero_le _, fun turns rest h => h, ?_⟩
      rw [Nat.add_zero, ← settle_of_results_ne_nil hresults]
      exact hturn
    · -- the search goes on, and so does the loop
      have honward : s.turn base units next
          = .ok (some ([], { s with tokenizer := w }, next + 1)) := by
        rw [hturn]
        cases r with
        | false => rfl
        | true => rw [if_pos rfl, settle_of_results (by simpa using hready)]
      have hsearch' : search ({ s with tokenizer := w } : Scanner σ S).tokenizer
          (units.drop (next + 1)) = .ok (lexemes, v) := by
        have hnot : ¬(r && !w.results.isEmpty) = true := by simpa using hready
        rw [if_neg hnot] at hsearch
        rw [hrest]
        exact hsearch
      obtain ⟨t, n, hn, hturns, hlast⟩ := ih hsearch' hrest
      refine ⟨t, n + 1, by omega, fun turns rest h => ?_, ?_⟩
      · rw [← Nat.add_assoc, Nat.add_right_comm next] at h
        exact .later honward (hturns turns rest h)
      · rw [Nat.add_right_comm] at hlast
        exact hlast

/-- **A scan that meets no fault is the loop**, and the units that are left
bound its turns. -/
theorem endsAfter_of_scanFrom {s' : Scanner σ S} (base : Nat)
    (hscan : s.scanFrom base units next = .ok (lexemes, s')) :
    ∃ turns, 2 * turns ≤ (units.length - next + 1) * (units.length - next + 2) ∧
      EndsAfter base units s next turns lexemes := by
  induction hleft : units.length - next using Nat.strong_induction_on
    generalizing s s' next lexemes with
  | h left ih =>
    rw [scanFrom] at hscan
    obtain ⟨⟨found, v⟩, hsearch, hscan⟩ := exists_of_bind_eq_ok hscan
    obtain ⟨t, n, hn, hturns, hlast⟩ := exists_last_turn base hsearch
    cases hchoose : s.choose found with
    | none =>
      simp only [hchoose] at hscan hlast
      obtain ⟨rfl, -⟩ := Prod.mk.inj (Except.ok.inj hscan)
      refine ⟨1 + n, ?_, hturns 1 [] (.now hlast)⟩
      rw [Nat.mul_add (left + 1)]
      omega
    | some l =>
      simp only [hchoose] at hscan hlast
      split at hscan
      next hforward =>
        obtain ⟨⟨rest, s''⟩, hrest, hscan⟩ := exists_of_bind_eq_ok hscan
        obtain ⟨rfl, -⟩ := Prod.mk.inj (Except.ok.inj hscan)
        obtain ⟨turns, hle, hends⟩ := ih (units.length - (l.stop - base)) (by omega) hrest rfl
        refine ⟨turns + 1 + n, ?_, hturns _ _ (.later hlast hends)⟩
        have hfewer : (units.length - (l.stop - base) + 1) * (units.length - (l.stop - base) + 2)
            ≤ (left + 1) * left := by
          rw [Nat.mul_comm]
          exact Nat.mul_le_mul (by omega) (by omega)
        rw [Nat.mul_add (left + 1)]
        omega
      next => cases hscan

end Scanner

open Tokenizer Scanner

/-! ## Lexemes one behind the other -/

/-- **Lexemes that move forward** from a place: none is empty, and each starts
at or behind the end of the one before. -/
structure Forward (place : Nat) (lexemes : List Lexeme) : Prop where
  place_le : ∀ l ∈ lexemes, place ≤ l.start
  nonempty : ∀ l ∈ lexemes, l.start < l.stop
  ordered : lexemes.Pairwise fun l k => l.stop ≤ k.start

theorem Forward.cons {place : Nat} {l : Lexeme} {lexemes : List Lexeme} (hplace : place ≤ l.start)
    (hne : l.start < l.stop) (h : Forward l.stop lexemes) : Forward place (l :: lexemes) where
  place_le := List.forall_mem_cons.2 ⟨hplace, fun k hk => by
    have := h.place_le k hk
    omega⟩
  nonempty := List.forall_mem_cons.2 ⟨hne, h.nonempty⟩
  ordered := List.pairwise_cons.2 ⟨h.place_le, h.ordered⟩

/-- **The committed lexemes move forward**, and each takes a unit. -/
theorem Committed.forward {t : Tokenizer σ} {units : List UInt32} {lexemes : List Lexeme}
    (h : Committed t units lexemes) (hfresh : t.Fresh) (hplaced : t.Placed t.position) :
    Forward t.position lexemes ∧ lexemes.length ≤ units.length := by
  induction h with
  | done => exact ⟨⟨fun _ hl => (nomatch hl), fun _ hl => (nomatch hl), .nil⟩, Nat.zero_le _⟩
  | @commit t v units r n rest hsearch hfirst hstop _ ih =>
    have hv := hsearch.placed hplaced
    have hmem := mem_of_first? hfirst
    have habove := hv.held.results r hmem
    have hfloor := Nat.le_trans habove.floor_le (Nat.le_of_lt habove.nonempty)
    obtain ⟨hforward, hlength⟩ := ih (fresh_rewind v _)
      (placed_rewind hv.lines _ (Nat.le_trans hv.lines.origin_le hfloor))
    refine ⟨.cons habove.floor_le habove.nonempty hforward, ?_⟩
    -- the lexeme takes at least one unit, and there is one
    have hunits : units ≠ [] := by
      rintro rfl
      rw [hsearch.results_of_fresh hfresh] at hmem
      exact nomatch hmem
    have hpos := List.length_pos_of_ne_nil hunits
    have hn : 0 < n := by
      have := Nat.lt_of_le_of_lt habove.floor_le habove.nonempty
      omega
    rw [List.length_drop] at hlength
    rw [List.length_cons]
    omega

/-- **A scan always ends and always moves forward**, for whatever units, in
every mode and under every policy. It meets no fault, and its loop ends without
the check that guards it, after a number of turns that the units bound. The
committed lexemes are not empty and lie one behind the other, at most one for
each unit. -/
theorem scanUnits_moves_forward (tokens : List (Token σ)) (config : TokenizerConfig)
    (reserved : Option Reserved) (policies : PolicyTable) (units : List UInt32) :
    ∃ lexemes s' turns,
      (ofTokens tokens config reserved policies).scanUnits units = .ok (lexemes, s') ∧
      EndsAfter config.offset units (ofTokens tokens config reserved policies) 0 turns lexemes ∧
      2 * turns ≤ (units.length + 1) * (units.length + 2) ∧
      (∀ l ∈ lexemes, config.offset ≤ l.start ∧ l.start < l.stop) ∧
      lexemes.Pairwise (fun l k => l.stop ≤ k.start) ∧ lexemes.length ≤ units.length := by
  obtain ⟨lexemes, s', hscan, hcommitted⟩ := scanUnits_total tokens config reserved policies units
  obtain ⟨turns, hturns, hends⟩ := endsAfter_of_scanFrom config.offset hscan
  obtain ⟨hforward, hlength⟩ := hcommitted.forward ⟨rfl, rfl, rfl⟩
    (placed_ofTokens tokens config reserved policies)
  exact ⟨lexemes, s', turns, hscan, hends, hturns,
    fun l hl => ⟨hforward.place_le l hl, hforward.nonempty l hl⟩, hforward.ordered, hlength⟩

end Lexing
