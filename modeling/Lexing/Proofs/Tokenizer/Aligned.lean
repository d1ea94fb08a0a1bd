import Lexing.Proofs.Token.Run
import Lexing.Proofs.Tokenizer.Placed

/-!
# Candidates stay aligned with the signature

The state of a candidate is the one its token comes to on the characters that
its bucket has seen, and its fallback is the state on the first of them. A step
that is not broken off keeps this; one that is broken off leaves candidates
behind that have not seen the last character, but then lexemes are ready. What
a tokenizer reports is sound either way (`Treated.aligned`, `Treated.sound`).
-/

namespace Lexing

variable {σ : Type}

/-- **A sound lexeme.** A recognized one is a text that its token accepts and
holds valid, with the value that the token decodes it to; an unrecognized one
has no value. -/
structure Lexeme.Sound (l : Lexeme) (tokens : List (Token σ)) (reserved : Option Reserved) :
    Prop where
  recognized : l.isRecognized = true → ∃ token ∈ tokens, l.token = some token.tag ∧
    ∃ st, token.run (token.fresh reserved) [] l.text = some st ∧
      token.isValid st l.text = true ∧ l.value = token.decode st l.text
  unrecognized : l.isRecognized = false → l.token = none ∧ l.value = none

theorem Lexeme.sound_of_none {l : Lexeme} {tokens : List (Token σ)} {reserved : Option Reserved}
    (htoken : l.token = none) (hvalue : l.value = none) : l.Sound tokens reserved where
  recognized h := by
    rw [isRecognized, htoken] at h
    exact nomatch h
  unrecognized _ := ⟨htoken, hvalue⟩

/-- **A candidate is aligned with a text**: its state, and that of its
fallback, are those its token comes to. -/
structure Candidate.Aligned (x : Candidate σ) (tokens : List (Token σ))
    (reserved : Option Reserved) (text : List Char) : Prop where
  mem : x.token ∈ tokens
  run : x.token.run (x.token.fresh reserved) [] text = some x.state
  fallback : ∀ n st, x.fallback = some (n, st) →
    n ≤ text.length ∧ x.token.run (x.token.fresh reserved) [] (text.take n) = some st

namespace Candidate

variable {x y : Candidate σ} {tokens : List (Token σ)} {reserved : Option Reserved}
variable {text : List Char} {c : Char}

/-- One more character keeps a candidate aligned. -/
theorem Aligned.offered (h : x.Aligned tokens reserved text) {terminate : Bool}
    (hy : x.offered text c terminate = some y) : y.Aligned tokens reserved (text ++ [c]) := by
  obtain ⟨-, st, hst, rfl⟩ := offered_eq_some_iff.1 hy
  have hrun : x.token.run (x.token.fresh reserved) [] (text ++ [c]) = some st := by
    rw [Token.run_snoc, h.run]
    exact hst
  refine ⟨h.mem, hrun, fun n st' hn => ?_⟩
  by_cases hvalid : x.token.isValid st (text ++ [c]) = true
  · simp only [if_pos hvalid] at hn
    obtain ⟨rfl, rfl⟩ := Prod.mk.inj (Option.some.inj hn)
    have hlength : (text ++ [c]).length = text.length + 1 := by simp
    rw [← hlength, List.take_length]
    exact ⟨Nat.le_refl _, hrun⟩
  · simp only [if_neg hvalid] at hn
    obtain ⟨hle, hfall⟩ := h.fallback n st' hn
    rw [List.take_append_of_le_length hle, List.length_append]
    exact ⟨Nat.le_add_right_of_le hle, hfall⟩

/-- What a candidate settles for is a state its token comes to. -/
theorem Aligned.settled (h : x.Aligned tokens reserved text) {n : Nat} {st : σ}
    (hs : x.settled text = some (n, st)) :
    x.token.run (x.token.fresh reserved) [] (text.take n) = some st := by
  rw [Candidate.settled] at hs
  split at hs
  next =>
    obtain ⟨rfl, rfl⟩ := Prod.mk.inj (Option.some.inj hs)
    rw [List.take_length]
    exact h.run
  next => exact (h.fallback n st hs).2

end Candidate

/-- What an aligned candidate yields is sound. -/
theorem Bucket.Fits.sound_of_mem_yield {b : Bucket σ} {s : Signature} {x : Candidate σ}
    {stop : Nat} {tokens : List (Token σ)} {reserved : Option Reserved} (h : b.Fits s)
    (hx : x ∈ b.live) (halign : x.Aligned tokens reserved (b.text s)) {r : Ready}
    (hr : r ∈ b.yield s stop x) : r.lexeme.Sound tokens reserved := by
  obtain ⟨n, st, hs, rfl⟩ := mem_yield.1 hr
  refine ⟨fun _ => ⟨x.token, halign.mem, rfl, st, halign.settled hs, (h.settled hx hs).2.2, rfl⟩,
    fun h => nomatch h⟩

namespace Tokenizer

variable {t u : Tokenizer σ} {floor here width : Nat} {c : Char}

/-- Every active candidate is aligned with what its bucket has seen. -/
def Aligned (t : Tokenizer σ) : Prop :=
  ∀ b ∈ t.active, ∀ x ∈ b.live, x.Aligned t.tokens t.reserved (b.text t.signature)

/-- Every lexeme that waits is sound. -/
def Sound (t : Tokenizer σ) : Prop := ∀ r ∈ t.results, r.lexeme.Sound t.tokens t.reserved

theorem Sound.reporting (h : t.Sound) {r : Ready} (hr : r.lexeme.Sound t.tokens t.reserved) :
    (t.reporting r).Sound := fun r' hr' => by
  obtain hr' | hr' := List.mem_append.1 hr'
  · exact h r' hr'
  · rw [List.mem_singleton.1 hr']
    exact hr

/-- A candidate that begins is aligned with its first character. -/
theorem aligned_beginning {x : Candidate σ} (hx : x ∈ t.beginning c) :
    x.Aligned t.tokens t.reserved [c] := by
  obtain ⟨⟨token, rank⟩, hmem, hbegin⟩ := List.mem_filterMap.1 hx
  obtain ⟨st, hst, rfl⟩ := Option.map_eq_some_iff.1 hbegin
  have hrun : token.run (token.fresh t.reserved) [] [c] = some st := by
    rw [Token.run, hst]
    rfl
  refine ⟨(List.mem_zipIdx hmem).2.2 ▸ List.getElem_mem _, hrun, fun n st' hn => ?_⟩
  by_cases hvalid : token.isValid st [c] = true
  · simp only [if_pos hvalid] at hn
    obtain ⟨rfl, rfl⟩ := Prod.mk.inj (Option.some.inj hn)
    exact ⟨Nat.le_refl _, hrun⟩
  · simp only [if_neg hvalid] at hn
    exact absurd hn.symm (Option.some_ne_none _)

/-- Offering a character keeps the lexemes sound. -/
theorem Sound.offered (h : t.Sound) (ht : t.Aligned) (hb : t.Between floor here)
    {terminate firstOnly : Bool} {st : Stepped (Bucket σ)}
    (hst : BucketStep t.signature here c terminate firstOnly t.active st) :
    (t.offered here c st).Sound := fun r hr => by
  obtain hr | hr := List.mem_append.1 hr
  · exact h r hr
  · obtain ⟨b, hmem, x, hx, -, hr⟩ := hst.ready_from hr
    exact (hb.fits b hmem).sound_of_mem_yield hx (ht b hmem x hx) hr

/-- A step that is not broken off keeps the candidates aligned. -/
theorem Aligned.offered (h : t.Aligned) (hb : t.Between floor here)
    {terminate firstOnly : Bool} {st : Stepped (Bucket σ)}
    (hst : BucketStep t.signature here c terminate firstOnly t.active st)
    (hwhole : st.stopped = false) : (t.offered here c st).Aligned := fun b' hb' y hy => by
  obtain ⟨b, hmem, live, rfl, hlive⟩ := hst.kept_from (List.mem_of_mem_filter hb')
  obtain ⟨hstop, -⟩ | ⟨x, hx, hxy⟩ := hlive y hy
  · rw [hwhole] at hstop
    exact nomatch hstop
  · have htext : b.text (t.signature ++ [(c, here)]) = b.text t.signature ++ [c] :=
      Bucket.text_append (Nat.le_of_lt (hb.fits b hmem).key_lt) _
    show y.Aligned t.tokens t.reserved (b.text (t.signature ++ [(c, here)]))
    rw [htext]
    exact (h b hmem x hx).offered hxy

/-- **What a character leaves waiting is sound**, in every mode. -/
theorem Treated.sound {r : Bool} (htreated : Treated t here width c r u) (ht : t.Aligned)
    (h : t.Sound) (hb : t.Between floor here) : u.Sound := by
  cases htreated with
  | trimmed => exact h
  | interrupted => exact h.reporting (Lexeme.sound_of_none rfl rfl)
  | disallowed => exact h.reporting (Lexeme.sound_of_none rfl rfl)
  | ignored => exact h
  | consumed _ _ st hst _ _ hout =>
    have hoffered := h.offered ht hb hst
    cases hout with
    | ready => exact hoffered
    | wasted => exact hoffered.reporting (Lexeme.sound_of_none rfl rfl)
    | waiting => exact hoffered
    | unmatched => exact hoffered
    | interrupted => exact hoffered.reporting (Lexeme.sound_of_none rfl rfl)
    | begun => exact hoffered

/-- **A search that goes on keeps its candidates aligned.** -/
theorem Treated.aligned (htreated : Treated t here width c false u) (ht : t.Aligned)
    (hb : t.Between floor here) : u.Aligned := by
  cases htreated with
  | trimmed => exact ht
  | ignored => exact ht
  | consumed _ _ st hst _ _ hout =>
    cases hout with
    | waiting hgo => exact ht.offered hb hst hgo.unbroken
    | unmatched hgo => exact ht.offered hb hst hgo.unbroken
    | begun hgo =>
      intro b hmem x hx
      obtain hmem | hmem := List.mem_append.1 hmem
      · exact ht.offered hb hst hgo.unbroken b hmem x hx
      · rw [List.mem_singleton.1 hmem] at hx ⊢
        have hs : (t.offered here c st).signature = t.signature ++ [(c, here)] := rfl
        show x.Aligned t.tokens t.reserved (Bucket.text _ (t.offered here c st).signature)
        rw [Bucket.text_beginning hs]
        exact aligned_beginning hx

end Tokenizer

end Lexing
