import Lexing.Proofs.Scanner.Scan
import Lexing.Proofs.Tokenizer.Aligned

/-!
# Committed lexemes are sound

A search goes on only from tokenizers whose candidates are aligned, so what it
finds is sound, and the next search starts without candidates. Hence every
committed lexeme is sound, in every mode and under every policy, for whatever
units (`scanUnits_sound`).
-/

namespace Lexing

variable {σ : Type}

namespace Tokenizer

variable {t v : Tokenizer σ} {floor : Nat}

theorem Aligned.step (h : t.Aligned) : t.step.Aligned := by
  cases hactive : t.active with
  | nil =>
    intro b hb
    have hmem : b ∈ t.active := hb
    rw [hactive] at hmem
    exact nomatch hmem
  | cons b bs =>
    have hs : t.step.signature = t.signature := by simp [Tokenizer.step, hactive]
    intro b hb
    rw [hs]
    exact h b hb

theorem Aligned.of_active_eq_nil (h : t.active = []) : t.Aligned := fun b hb => by
  rw [h] at hb
  exact nomatch hb

variable {unit : UInt32}

theorem Fed.sound {r : Bool} (hfed : Fed t unit r v) (ht : t.Aligned) (h : t.Sound)
    (hp : t.Placed floor) : v.Sound := by
  cases hfed with
  | passed => exact h
  | led _ lines run _ _ _ htreated =>
    exact htreated.sound ht.step h (hp.held.tracked lines run)

theorem Fed.aligned (hfed : Fed t unit false v) (ht : t.Aligned) (hp : t.Placed floor) :
    v.Aligned := by
  cases hfed with
  | passed => exact ht.step
  | led _ lines run _ _ _ htreated =>
    exact htreated.aligned ht.step (hp.held.tracked lines run)

/-- What waits at the end of the stream is sound. -/
theorem sound_finished (ht : t.Aligned) (h : t.Sound) (hp : t.Placed floor) : t.finished.Sound := by
  have hsetup := setupAs_finished t
  intro r hr
  rw [hsetup.tokens, hsetup.reserved]
  obtain hr | ⟨b, hb, x, hx, hr⟩ | ⟨-, rfl⟩ | ⟨run, -, rfl⟩ := mem_finished hr
  · exact h r hr
  · exact (hp.held.fits b hb).sound_of_mem_yield hx (ht b hb x hx) hr
  · exact Lexeme.sound_of_none rfl rfl
  · exact Lexeme.sound_of_none rfl rfl

end Tokenizer

open Tokenizer

/-- What a search finds is sound. -/
theorem Searched.sound {t v : Tokenizer σ} {units : List UInt32} {floor : Nat}
    (hsearch : Searched t units v) (ht : t.Aligned) (h : t.Sound) (hp : t.Placed floor) :
    v.Sound := by
  induction hsearch with
  | finished t => exact sound_finished ht h hp
  | ready hfed => exact hfed.sound ht h hp
  | onward hfed _ ih => exact ih (hfed.aligned ht hp) (hfed.sound ht h hp) (hfed.placed hp)

/-- What a scan commits is sound. -/
theorem Committed.sound {t : Tokenizer σ} {units : List UInt32} {lexemes : List Lexeme}
    {floor : Nat} (hcommitted : Committed t units lexemes) (ht : t.Fresh) (hp : t.Placed floor) :
    ∀ l ∈ lexemes, l.Sound t.tokens t.reserved := by
  induction hcommitted generalizing floor with
  | done => exact fun l hl => nomatch hl
  | @commit t v units r n rest hsearch hfirst hstop _ ih =>
    have hsetup := hsearch.setupAs
    have hsound := hsearch.sound (.of_active_eq_nil ht.active) (fun r hr => by
      rw [ht.results] at hr
      exact nomatch hr) hp
    have hr := mem_of_first? hfirst
    have hv := hsearch.placed hp
    have hfloor := (hv.held.results r hr).floor_le
    have hnonempty := (hv.held.results r hr).nonempty
    rw [← hsetup.tokens, ← hsetup.reserved]
    refine List.forall_mem_cons.2 ⟨hsound r hr, ih (fresh_rewind v _) (placed_rewind hv.lines _ ?_)⟩
    exact Nat.le_trans hv.lines.origin_le (by omega)

/-- **Committed lexemes are sound**, in every mode and under every policy,
whatever the units are: the scan succeeds, a recognized lexeme is a text that
its token accepts character by character and holds valid, with the value that
it decodes to there, and an unrecognized one has neither token nor value. -/
theorem scanUnits_sound (tokens : List (Token σ)) (config : TokenizerConfig)
    (reserved : Option Reserved) (policies : PolicyTable) (units : List UInt32) :
    ∃ lexemes s',
      (Scanner.ofTokens tokens config reserved policies).scanUnits units = .ok (lexemes, s') ∧
        ∀ l ∈ lexemes, l.Sound tokens reserved := by
  obtain ⟨lexemes, s', hscan, hcommitted⟩ :=
    Scanner.scanUnits_total tokens config reserved policies units
  exact ⟨lexemes, s', hscan,
    hcommitted.sound ⟨rfl, rfl, rfl⟩ (Scanner.placed_ofTokens tokens config reserved policies)⟩

end Lexing
