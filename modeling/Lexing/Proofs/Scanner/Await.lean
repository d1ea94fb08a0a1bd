import Lexing.Proofs.Scanner.Prospect
import Lexing.Proofs.Scanner.Reference

/-!
# Waiting for every candidate

When every candidate is awaited, a search that has begun candidates ends with
all that they come to, or with what they have taken if they come to nothing
(`SearchedText.live`).
-/

namespace Lexing

variable {σ : Type}

open Tokenizer

section Live

variable {e : Encoding} {P : PolicyTable} {b : Bucket σ} {s : Signature} {here n : Nat}
variable {mid rest : List Char} {c : Char} {before after : List Ready}

/-! ## What candidates leave -/

/-- **What candidates take in vain** is reported in one piece: `n` characters,
which is as much as any of them takes. -/
structure WastedBy (b : Bucket σ) (e : Encoding) (mid rest : List Char) (n : Nat)
    (after : List Ready) : Prop where
  reached : ∃ x ∈ b.live, x.reach (mid.map toAscii) (rest.map toAscii) = n
  most : ∀ x ∈ b.live, x.reach (mid.map toAscii) (rest.map toAscii) ≤ n
  reported : ∃ r, after = [r] ∧ r.lexeme.withoutLine = .stray e b.start ((mid ++ rest).take n)

/-- All that has been read is left when the last candidates end. -/
theorem WastedBy.of_wasted {t : Tokenizer σ} (hP : P.OnlyTrims) (hkey : b.key = 0)
    (hs : t.signature = trace e P b.start mid) (hhere : here = b.start + e.size mid)
    (hfits : b.Fits t.signature) (hlive : b.live ≠ [])
    (hreach : ∀ x ∈ b.live, x.reach (mid.map toAscii) (rest.map toAscii) = mid.length)
    (hafter : after = [t.wasted t.signature.length here]) :
    WastedBy b e mid rest mid.length after := by
  obtain ⟨x, hx⟩ := List.exists_mem_of_ne_nil _ hlive
  refine ⟨⟨x, hx, hreach x hx⟩, fun y hy => Nat.le_of_eq (hreach y hy), _, hafter, ?_⟩
  have hstart : t.signature.boundary here 0 = b.start := by
    rw [← hkey]
    exact hfits.start_eq here
  have htext : t.signature.text.take t.signature.length = mid.map toAscii := by
    rw [← Signature.length_text, List.take_length, hs, text_trace, hP.visible_eq]
  rw [List.take_left, Lexeme.stray, ← hhere]
  simp only [Tokenizer.wasted, Lexeme.withoutLine, hstart, htext]

/-- What the candidates that go on take in vain is as much as any takes. -/
theorem WastedBy.of_offered
    (h : WastedBy (b.passed s (toAscii c) false) e (mid ++ [c]) rest n after)
    (htext : b.text s = mid.map toAscii) : WastedBy b e mid (c :: rest) n after := by
  obtain ⟨⟨y, hy, hyn⟩, hmost, r, hr, hlexeme⟩ := h
  -- a candidate that goes on reaches beyond those that end here
  have hlonger := y.length_le_reach ((mid ++ [c]).map toAscii) (rest.map toAscii)
  rw [hyn, List.length_map, List.length_append, List.length_singleton] at hlonger
  rw [List.append_assoc] at hlexeme
  refine ⟨?_, fun x hx => ?_, r, hr, hlexeme⟩
  · obtain ⟨x, hx, hxy⟩ := List.mem_filterMap.1 hy
    rw [htext] at hxy
    refine ⟨x, hx, ?_⟩
    rw [List.map_cons, Candidate.reach_cons_of_some hxy, ← hyn, List.map_append]
    rfl
  · cases hxy : x.advance? (mid.map toAscii) (toAscii c) with
    | none =>
      rw [List.map_cons, Candidate.reach_cons_of_none hxy, List.length_map]
      omega
    | some z =>
      have hz : z ∈ b.goingOn s (toAscii c) false b.live :=
        List.mem_filterMap.2 ⟨x, hx, by rw [htext]; exact hxy⟩
      have hle := hmost z hz
      rw [List.map_append] at hle
      rw [List.map_cons, Candidate.reach_cons_of_some hxy]
      exact hle

/-- **What candidates leave waiting**: the lexemes they come to, or else all
that one of them has taken. -/
inductive LeftBy (b : Bucket σ) (e : Encoding) (mid rest : List Char) (before after : List Ready) :
    Prop
  /-- some lexemes are found -/
  | found (hperm : after.Perm (before ++ b.live.flatMap (b.prospect e mid rest)))
    (hne : before ++ b.live.flatMap (b.prospect e mid rest) ≠ [])
  /-- no candidate comes to a lexeme -/
  | wasted (hnone : before ++ b.live.flatMap (b.prospect e mid rest) = []) (n : Nat)
    (hwasted : WastedBy b e mid rest n after)

/-- What the candidates that go on leave is what all of them leave. -/
theorem LeftBy.of_offered
    (h : LeftBy (b.passed s (toAscii c) false) e (mid ++ [c]) rest
      (before ++ b.yielded s here (toAscii c) false b.live) after)
    (hperm : (before ++ b.live.flatMap (b.prospect e mid (c :: rest))).Perm
      ((before ++ b.yielded s here (toAscii c) false b.live) ++
        (b.passed s (toAscii c) false).live.flatMap
          ((b.passed s (toAscii c) false).prospect e (mid ++ [c]) rest)))
    (htext : b.text s = mid.map toAscii) : LeftBy b e mid (c :: rest) before after := by
  cases h with
  | found hafter hne => exact .found (hafter.trans hperm.symm) fun h => hne (h ▸ hperm).symm.eq_nil
  | wasted hnone n hwasted => exact .wasted (hnone ▸ hperm).eq_nil n (hwasted.of_offered htext)

/-! ## From character to character -/

/-- **A tokenizer that awaits candidates**: those of one bucket, which have
seen `mid`. -/
structure Tokenizer.Awaits (t : Tokenizer σ) (select : Select) (b : Bucket σ) (e : Encoding)
    (P : PolicyTable) (mid : List Char) : Prop where
  encoding : t.encoding = e
  policies : t.policies = P
  mode : t.mode = ⟨select, false⟩
  position : t.position = b.start + e.size mid
  active : t.active = [b]
  key : b.key = 0
  signature : t.signature = trace e P b.start mid
  unmatched : t.unmatched = none
  live : b.live ≠ []

namespace Tokenizer.Awaits

variable {t u v : Tokenizer σ} {select : Select} {floor : Nat} {lines : LineTable}
  {run : Option Nat}

theorem fits (h : t.Awaits select b e P mid) (hplaced : t.Placed floor) : b.Fits t.signature :=
  hplaced.held.fits b (by simp [h.active])

theorem sees (h : t.Awaits select b e P mid) (hP : P.OnlyTrims) (hplaced : t.Placed floor) :
    b.Sees e t.signature t.position mid := by
  have hsees := sees_of_trace hP h.signature h.position (h.fits hplaced)
  rwa [h.key, List.drop_zero] at hsees

theorem signature_tracked (h : t.Awaits select b e P mid) (lines : LineTable) (run : Option Nat) :
    (t.tracked lines run).signature = t.signature :=
  signature_tracked_of_live lines run (by simp [h.active])

/-- Whatever is next, what waits and what the candidates will come to stay
the same together. -/
theorem perm_prospects (h : t.Awaits select b e P mid) (hP : P.OnlyTrims) (hplaced : t.Placed floor)
    (c : Char) (rest : List Char) :
    (t.results ++ b.live.flatMap (b.prospect e mid (c :: rest))).Perm
      ((t.results ++ b.yielded t.signature t.position (toAscii c) false b.live) ++
        (b.passed t.signature (toAscii c) false).live.flatMap
          ((b.passed t.signature (toAscii c) false).prospect e (mid ++ [c]) rest)) := by
  have hperm := (h.sees hP hplaced).prospects_offered (h.fits hplaced) c rest b.live fun _ hx => hx
  rw [List.append_assoc]
  exact hperm.append_left t.results

/-- At the end of the text. -/
theorem finished (h : t.Awaits select b e P mid) (hP : P.OnlyTrims) (hplaced : t.Placed floor) :
    LeftBy b e mid [] t.results t.finished.results := by
  have hfits := h.fits hplaced
  have hperm : t.settled.results.Perm (t.results ++ b.live.flatMap (b.prospect e mid [])) := by
    have hend := (h.sees hP hplaced).perm_yieldedAtEnd hfits
    simpa [Tokenizer.settled, h.active] using hend.append_left t.results
  have hfinished : t.finished.results = t.covered.results := by
    simp [Tokenizer.finished, unmatched_covered, h.unmatched]
  rw [hfinished, covered]
  by_cases hnone : t.results ++ b.live.flatMap (b.prospect e mid []) = []
  · have hsettled : t.settled.results = [] := (hnone ▸ hperm).eq_nil
    have hreach (x : Candidate σ) (_ : x ∈ b.live) :
        x.reach (mid.map toAscii) (([] : List Char).map toAscii) = mid.length := by
      rw [List.map_nil, Candidate.reach, List.length_map]
    refine .wasted hnone mid.length
      (.of_wasted hP h.key h.signature h.position hfits h.live hreach ?_)
    simp [h.active, hsettled, reporting]
  · have hsettled : t.settled.results ≠ [] := fun h => hnone (h ▸ hperm).symm.eq_nil
    refine .found ?_ hnone
    simpa [hsettled] using hperm

/-- The tokenizer at a character, and what it comes to. -/
theorem treatedLive (h : t.Awaits select b e P mid) (hplaced : t.Placed floor) {width : Nat}
    {r : Bool} (htreated : Treated (t.tracked lines run) t.position width (toAscii c) r v) :
    TreatedLive (t.tracked lines run) b t.position (toAscii c) v r :=
  htreated.live h.active ((h.signature_tracked lines run) ▸ h.fits hplaced)
    (congrArg Mode.interleaved h.mode)

/-- When candidates end in vain, the whole signature is what they have taken. -/
theorem wasted (h : t.Awaits select b e P mid) (hP : P.OnlyTrims) (hplaced : t.Placed floor)
    (rest : List Char) (hdead : b.goingOn t.signature (toAscii c) false b.live = [])
    (hresults : v.results = [(t.tracked lines run).wasted t.signature.length t.position]) :
    WastedBy b e mid (c :: rest) mid.length v.results := by
  have hsame := h.signature_tracked lines run
  have hreach (x : Candidate σ) (hx : x ∈ b.live) :
      x.reach (mid.map toAscii) ((c :: rest).map toAscii) = mid.length := by
    have hrefuse : x.offered (b.text t.signature) (toAscii c) false = none :=
      List.filterMap_eq_nil_iff.1 hdead x hx
    rw [(h.sees hP hplaced).text] at hrefuse
    rw [List.map_cons, Candidate.reach_cons_of_none hrefuse, List.length_map]
  exact .of_wasted (t := t.tracked lines run) hP h.key (hsame.trans h.signature) h.position
    (hsame ▸ h.fits hplaced) h.live hreach (by rw [hsame]; exact hresults)

/-- At a character that ends the search. -/
theorem ready (h : t.Awaits .all b e P mid) (hP : P.OnlyTrims) (hplaced : t.Placed floor)
    (rest : List Char) {width : Nat}
    (htreated : Treated (t.tracked lines run) t.position width (toAscii c) true v) :
    LeftBy b e mid (c :: rest) t.results v.results := by
  have hsame := h.signature_tracked lines run
  have hselect : (t.tracked lines run).mode.select = .all := congrArg Mode.select h.mode
  obtain ⟨hdisallow, -, hterminate⟩ := hP.get_eq (toAscii c)
  rw [← h.policies] at hdisallow hterminate
  have hend := (h.treatedLive hplaced htreated).ended (by rw [hselect]; decide) hdisallow hterminate
  rw [hsame, hselect] at hend
  have hperm := h.perm_prospects hP hplaced c rest
  obtain ⟨hne, hresults, hdead⟩ | ⟨hnone, hresults, hdead⟩ := hend
  · rw [show (b.passed t.signature (toAscii c) false).live = [] from hdead rfl, List.flatMap_nil,
      List.append_nil] at hperm
    exact .found (hresults ▸ hperm.symm) fun h => hne (h ▸ hperm).symm.eq_nil
  · rw [show t.results ++ b.yielded t.signature t.position (toAscii c) false b.live = []
      from hnone, show (b.passed t.signature (toAscii c) false).live = [] from hdead] at hperm
    exact .wasted hperm.eq_nil mid.length (h.wasted hP hplaced rest hdead hresults)

/-- At a character that some candidates take, it awaits those. -/
theorem passed (h : t.Awaits select b e P mid) (hP : P.OnlyTrims)
    (htreated : Treated (t.tracked lines run) t.position (e.unitLen c) (toAscii c) false u)
    (hkept : b.goingOn t.signature (toAscii c) false b.live ≠ [])
    (hactive : u.active = [b.passed t.signature (toAscii c) false])
    (hsignature : u.signature = t.signature ++ [(toAscii c, t.position)])
    (hrun : u.unmatched = t.unmatched) :
    (u.passedOver (e.unitLen c - 1)).Awaits select (b.passed t.signature (toAscii c) false) e P
      (mid ++ [c]) := by
  have hsetup := htreated.setupAs
  have htrace : trace e P b.start (mid ++ [c]) = t.signature ++ [(toAscii c, t.position)] := by
    rw [trace_append, ← h.signature, ← h.position, trace_cons_of_pass (hP.get_eq c).2.1]
    rfl
  have hposition := htreated.position_snoc h.position
  have hlater : (u.passedOver (e.unitLen c - 1)).signature = trace e P b.start (mid ++ [c]) :=
    (signature_passedOver_of_live _ (by simp [hactive])).trans (hsignature.trans htrace.symm)
  exact ⟨hsetup.encoding.trans h.encoding, hsetup.policies.trans h.policies,
    hsetup.mode.trans h.mode, hposition, hactive, h.key, hlater, hrun.trans h.unmatched, hkept⟩

/-- **At a character that ends nothing** it awaits the candidates that take it,
and it has found nothing yet or awaits every one. -/
theorem onward (h : t.Awaits select b e P mid) (hselect : select ≠ .first) (hP : P.OnlyTrims)
    (hplaced : t.Placed floor)
    (htreated : Treated (t.tracked lines run) t.position (e.unitLen c) (toAscii c) false u) :
    (u.passedOver (e.unitLen c - 1)).Awaits select (b.passed t.signature (toAscii c) false) e P
        (mid ++ [c]) ∧
      u.results = t.results ++ b.yielded t.signature t.position (toAscii c) false b.live ∧
      (u.results = [] ∨ select = .all) := by
  have hmode : (t.tracked lines run).mode.select = select := congrArg Mode.select h.mode
  obtain ⟨hdisallow, hignore, hterminate⟩ := hP.get_eq (toAscii c)
  rw [← h.policies] at hdisallow hignore hterminate
  obtain ⟨hwait, hkept, hactive, hresults, hsignature, hrun⟩ :=
    (h.treatedLive hplaced htreated).awaited (by rwa [hmode]) hdisallow hterminate hignore
  rw [h.signature_tracked lines run] at hwait hkept hactive hresults hsignature
  rw [hmode] at hwait
  exact ⟨h.passed hP htreated hkept hactive hsignature hrun, hresults,
    hwait.imp_left hresults.trans⟩

end Tokenizer.Awaits

/-- **A search that has begun candidates ends with what they come to.** -/
theorem SearchedText.live {t v : Tokenizer σ} {floor : Nat} (h : SearchedText t rest v)
    (hP : P.OnlyTrims) (hplaced : t.Placed floor) (hawaits : t.Awaits .all b e P mid) :
    LeftBy b e mid rest t.results v.results := by
  induction h generalizing b mid with
  | finished t => exact hawaits.finished hP hplaced
  | ready lines run hlines htreated => exact hawaits.ready hP hplaced _ htreated
  | @onward t u v c rest lines run hlines htreated _ ih =>
    rw [hawaits.encoding] at htreated ih
    obtain ⟨hnext, hresults, -⟩ := hawaits.onward (by decide) hP hplaced htreated
    have hleft := ih ((htreated.placed hplaced hlines (e.unitLen_pos c)).passedOver _) hnext
    rw [show (u.passedOver (e.unitLen c - 1)).results = _ from hresults] at hleft
    exact hleft.of_offered (hawaits.perm_prospects hP hplaced c rest) (hawaits.sees hP hplaced).text

end Live

end Lexing
