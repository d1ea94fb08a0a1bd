import Lexing.Proofs.Tokenizer.Outcome

/-!
# A character keeps a tokenizer in order

Whatever treating a character comes to, what the tokenizer holds lies in order
afterwards, one place further on and above the same floor
(`Treated.between`); its setup, its place and its lines are as before.
-/

namespace Lexing

variable {σ : Type}

namespace Bucket

variable {b : Bucket σ} {s : Signature} {x y : Candidate σ} {floor here : Nat} {c : Char}

/-- What a bucket yields is no empty lexeme. -/
theorem Fits.above_of_mem_yield (h : b.Fits s) (hw : s.Within floor here) (hx : x ∈ b.live)
    {r : Ready} (hr : r ∈ b.yield s here x) : r.Above floor := by
  obtain ⟨n, st, hs, rfl⟩ := mem_yield.1 hr
  obtain ⟨hn, -, -⟩ := h.settled hx hs
  exact ⟨h.floor_le_start hw, h.start_lt_boundary hw hn⟩

/-- A candidate that goes on keeps its fallback in order. -/
theorem Fits.fallback_offered (h : b.Fits s) (hx : x ∈ b.live) {terminate : Bool}
    (hy : x.offered (b.text s) c terminate = some y) {n : Nat} {st : σ}
    (hn : y.fallback = some (n, st)) :
    0 < n ∧ b.key + n ≤ (s ++ [(c, here)]).length ∧
      y.token.isValid st ((b.text (s ++ [(c, here)])).take n) = true := by
  obtain ⟨-, st', hst', rfl⟩ := Candidate.offered_eq_some_iff.1 hy
  have hkey := h.key_lt
  have htext : b.text (s ++ [(c, here)]) = b.text s ++ [c] := text_append (Nat.le_of_lt hkey) _
  have hlength := b.length_text s
  by_cases hvalid : x.token.isValid st' (b.text s ++ [c]) = true
  · simp only [if_pos hvalid] at hn
    obtain ⟨rfl, rfl⟩ := Prod.mk.inj (Option.some.inj hn)
    refine ⟨Nat.succ_pos _, by rw [List.length_append, List.length_singleton]; omega, ?_⟩
    rw [htext, List.take_of_length_le (by rw [List.length_append]; exact Nat.le_refl _)]
    exact hvalid
  · simp only [if_neg hvalid] at hn
    exact (h.append [(c, here)]).fallback x hx n st hn

/-- A bucket that begins with the last character of a signature has seen that
one only. -/
theorem text_beginning {front : Signature} (hs : s = front ++ [(c, here)]) {line lineStart : Nat}
    {live : List (Candidate σ)} : text ⟨s.length - 1, here, line, lineStart, live⟩ s = [c] := by
  rw [hs]
  simp [text, Signature.text]

/-- A bucket that begins with the last character of a signature fits it. -/
theorem fits_beginning {line lineStart : Nat} {live : List (Candidate σ)}
    (hline : lineStart ≤ here)
    (hlive : ∀ x ∈ live, ∀ n st, x.fallback = some (n, st) →
      n = 1 ∧ x.token.isValid st [c] = true) :
    Fits ⟨(s ++ [(c, here)]).length - 1, here, line, lineStart, live⟩ (s ++ [(c, here)]) where
  key_lt := by
    show (s ++ [(c, here)]).length - 1 < _
    rw [List.length_append]
    exact Nat.lt_succ_self _
  start_eq stop := by
    show Signature.boundary (s ++ [(c, here)]) stop ((s ++ [(c, here)]).length - 1) = here
    rw [List.length_append, List.length_singleton, Nat.add_sub_cancel,
      Signature.boundary_snoc s c here stop (Nat.le_refl _),
      Signature.boundary_of_length_le here (Nat.le_refl _)]
  lineStart_le := hline
  fallback x hx n st hn := by
    obtain ⟨rfl, hvalid⟩ := hlive x hx n st hn
    refine ⟨Nat.one_pos, ?_, ?_⟩
    · show (s ++ [(c, here)]).length - 1 + 1 ≤ _
      rw [List.length_append]
      exact Nat.le_refl _
    · simpa [text, Signature.text_append, Signature.text] using hvalid

end Bucket

namespace Tokenizer

variable {t u : Tokenizer σ} {floor here width : Nat} {c : Char}

/-- A candidate that begins falls back on its first character at most. -/
theorem fallback_beginning {x : Candidate σ} (hx : x ∈ t.beginning c) {n : Nat} {st : σ}
    (hn : x.fallback = some (n, st)) : n = 1 ∧ x.token.isValid st [c] = true := by
  obtain ⟨p, -, hp⟩ := List.mem_filterMap.1 hx
  obtain ⟨st', -, rfl⟩ := Option.map_eq_some_iff.1 hp
  by_cases hvalid : p.1.isValid st' [c] = true
  · simp only [if_pos hvalid] at hn
    obtain ⟨rfl, rfl⟩ := Prod.mk.inj (Option.some.inj hn)
    exact ⟨rfl, hvalid⟩
  · simp only [if_neg hvalid] at hn
    exact nomatch hn

/-! ## One character -/

theorem Between.mono (h : t.Between floor here) {place : Nat} (hle : here ≤ place) :
    t.Between floor place :=
  ⟨h.within.mono hle, h.fits, h.run, fun run hrun => Nat.lt_of_lt_of_le (h.run_lt run hrun) hle,
    h.results⟩

/-- Where candidates are active, there is a signature. -/
theorem Between.length_pos (h : t.Between floor here) (hactive : t.active ≠ []) :
    0 < t.signature.length := by
  obtain ⟨b, hb⟩ := List.exists_mem_of_ne_nil _ hactive
  exact Nat.zero_lt_of_lt (h.fits b hb).key_lt

theorem Between.reporting (h : t.Between floor here) {r : Ready} (hr : r.Above floor) :
    (t.reporting r).Between floor here := by
  refine ⟨h.within, h.fits, h.run, h.run_lt, fun r' hr' => ?_⟩
  obtain hr' | hr' := List.mem_append.1 hr'
  · exact h.results r' hr'
  · rw [List.mem_singleton.1 hr']
    exact hr

theorem Between.interrupted (h : t.Between floor here) {run : UnmatchedRun}
    (hrun : t.unmatched = some run) : (t.interrupted run).Between floor here := by
  refine ⟨h.within, h.fits, fun _ h => (nomatch h), fun _ h => (nomatch h), fun r' hr' => ?_⟩
  obtain hr' | hr' := List.mem_append.1 hr'
  · exact h.results r' hr'
  · rw [List.mem_singleton.1 hr']
    exact ⟨(h.run run hrun).floor_le, (h.run run hrun).nonempty⟩

/-- **Offering a character keeps the order.** -/
theorem Between.offered (h : t.Between floor here) (hfloor : floor ≤ here)
    {terminate firstOnly : Bool} {st : Stepped (Bucket σ)}
    (hst : BucketStep t.signature here c terminate firstOnly t.active st) :
    (t.offered here c st).Between floor (here + 1) where
  within := h.within.snoc c hfloor
  fits b' hb' := by
    obtain ⟨b, hb, live, rfl, hlive⟩ := hst.kept_from (List.mem_of_mem_filter hb')
    refine ((h.fits b hb).append [(c, here)]).withLive fun y hy n st' hn => ?_
    obtain ⟨-, hy⟩ | ⟨x, hx, hxy⟩ := hlive y hy
    · exact ((h.fits b hb).append [(c, here)]).fallback y hy n st' hn
    · exact (h.fits b hb).fallback_offered hx hxy hn
  run := h.run
  run_lt run hrun := Nat.lt_succ_of_lt (h.run_lt run hrun)
  results r hr := by
    obtain hr | hr := List.mem_append.1 hr
    · exact h.results r hr
    · obtain ⟨b, hb, x, hx, -, hr⟩ := hst.ready_from hr
      exact (h.fits b hb).above_of_mem_yield h.within hx hr

theorem Between.extendUnmatched (h : t.Between floor (here + 1)) (hfloor : floor ≤ here)
    (hline : t.lines.lastStart ≤ here) (hwidth : 0 < width) :
    (t.extendUnmatched here width c).Between floor (here + 1) := by
  cases hrun : t.unmatched with
  | none =>
    have hnew : (t.extendUnmatched here width c).unmatched
        = some ⟨here, here + width, t.lines.current.1, t.lines.current.2, [c]⟩ := by
      rw [Tokenizer.extendUnmatched, hrun]
    refine ⟨h.within, h.fits, fun run h => ?_, fun run h => ?_, h.results⟩ <;>
      obtain rfl := Option.some.inj (hnew.symm.trans h)
    · exact ⟨hfloor, Nat.lt_add_of_pos_right hwidth, hline⟩
    · exact Nat.lt_succ_self _
  | some run =>
    have hnew : (t.extendUnmatched here width c).unmatched
        = some { run with stop := here + width, text := run.text ++ [c] } := by
      rw [Tokenizer.extendUnmatched, hrun]
    have hlt := h.run_lt run hrun
    have habove := h.run run hrun
    refine ⟨h.within, h.fits, fun run h => ?_, fun run h => ?_, h.results⟩ <;>
      obtain rfl := Option.some.inj (hnew.symm.trans h)
    · exact ⟨habove.floor_le, by show run.start < here + width; omega, habove.lineStart_le⟩
    · exact hlt

theorem Between.begun {s : Signature} (h : t.Between floor (here + 1))
    (hs : t.signature = s ++ [(c, here)]) (hline : t.lines.lastStart ≤ here) :
    (t.begun here c).Between floor (here + 1) := by
  refine ⟨h.within, fun b hb => ?_, h.run, h.run_lt, h.results⟩
  obtain hb | hb := List.mem_append.1 hb
  · exact h.fits b hb
  · rw [List.mem_singleton.1 hb]
    show Bucket.Fits _ t.signature
    rw [hs]
    exact Bucket.fits_beginning hline fun x hx n st hn => fallback_beginning hx hn

/-- The lexeme of a signature that no token wanted is not empty. -/
theorem above_wasted {s : Signature} (hs : t.signature = s ++ [(c, here)])
    (hw : s.Within floor here) (hlength : 0 < s.length) (n : Nat) :
    (t.wasted n here).Above floor := by
  have hfirst : t.signature.boundary here 0 = s.boundary here 0 := by
    rw [hs, Signature.boundary_snoc s c here here (Nat.zero_le _)]
  refine ⟨?_, ?_⟩
  · show floor ≤ t.signature.boundary here 0
    rw [hfirst]
    exact hw.floor_le_boundary hlength
  · show t.signature.boundary here 0 < here
    rw [hfirst]
    exact hw.boundary_lt_stop hlength

/-- **Treating a character keeps the order.** -/
theorem Treated.between {r : Bool} (htreated : Treated t here width c r u)
    (h : t.Between floor here) (hfloor : floor ≤ here) (hline : t.lines.lastStart ≤ here)
    (hwidth : 0 < width) : u.Between floor (here + 1) := by
  have hnext := h.mono (Nat.le_succ here)
  cases htreated with
  | trimmed => exact hnext
  | interrupted _ _ run hrun => exact hnext.interrupted hrun
  | disallowed => exact hnext.reporting ⟨hfloor, Nat.lt_add_of_pos_right hwidth⟩
  | ignored => exact hnext
  | consumed _ _ st hst _ _ hout =>
    have hoffered := h.offered hfloor hst
    cases hout with
    | ready => exact hoffered
    | wasted _ _ hbefore =>
      exact hoffered.reporting (above_wasted rfl h.within hbefore _)
    | waiting => exact hoffered
    | unmatched => exact hoffered.extendUnmatched hfloor hline hwidth
    | interrupted _ _ _ run hrun => exact hoffered.interrupted hrun
    | begun => exact hoffered.begun rfl hline

/-- Two tokenizers are set up alike. -/
structure SetupAs (u t : Tokenizer σ) : Prop where
  tokens : u.tokens = t.tokens
  reserved : u.reserved = t.reserved
  mode : u.mode = t.mode
  encoding : u.encoding = t.encoding
  policies : u.policies = t.policies

theorem SetupAs.trans {v : Tokenizer σ} (hu : v.SetupAs u) (ht : u.SetupAs t) : v.SetupAs t :=
  ⟨hu.tokens.trans ht.tokens, hu.reserved.trans ht.reserved, hu.mode.trans ht.mode,
    hu.encoding.trans ht.encoding, hu.policies.trans ht.policies⟩

theorem Treated.setupAs {r : Bool} (h : Treated t here width c r u) : u.SetupAs t := by
  cases h with
  | consumed _ _ st hst _ _ hout => cases hout <;> exact ⟨rfl, rfl, rfl, rfl, rfl⟩
  | _ => exact ⟨rfl, rfl, rfl, rfl, rfl⟩

/-- Whatever a character comes to, the place and the lines stay. -/
theorem Treated.frame {r : Bool} (h : Treated t here width c r u) :
    u.position = t.position ∧ u.lines = t.lines ∧ u.newlineRun = t.newlineRun := by
  cases h with
  | consumed _ _ st hst _ _ hout => cases hout <;> exact ⟨rfl, rfl, rfl⟩
  | _ => exact ⟨rfl, rfl, rfl⟩

/-- When lexemes are said to be ready, some are. -/
theorem Treated.results_ne_nil (h : Treated t here width c true u) : u.results ≠ [] := by
  cases h with
  | interrupted => exact List.append_ne_nil_of_right_ne_nil _ (List.cons_ne_nil _ _)
  | disallowed => exact List.append_ne_nil_of_right_ne_nil _ (List.cons_ne_nil _ _)
  | consumed _ _ st hst _ _ hout =>
    cases hout with
    | ready hne => exact hne
    | wasted => exact List.append_ne_nil_of_right_ne_nil _ (List.cons_ne_nil _ _)
    | interrupted => exact List.append_ne_nil_of_right_ne_nil _ (List.cons_ne_nil _ _)

end Tokenizer

end Lexing
