import Lexing.Proofs.Tokenizer.Placed

/-!
# Steps without interleaving

Without interleaving there are two kinds of tokenizers between characters:
those without candidates, and those with one bucket that started where the
signature starts. What treating a character comes to is told for each kind on
its own (`TreatedIdle`, `TreatedLive`), by what is left afterwards.
-/

namespace Lexing

variable {σ : Type}

namespace Tokenizer

variable {t u : Tokenizer σ} {here width : Nat} {c : Char}

/-- The unmatched run with one more character, which stands at `here`. -/
def extendedRun (t : Tokenizer σ) (here width : Nat) (c : Char) : UnmatchedRun :=
  match t.unmatched with
  | some run => { run with stop := here + width, text := run.text ++ [c] }
  | none => ⟨here, here + width, t.lines.current.1, t.lines.current.2, [c]⟩

/-- **What a character comes to without candidates.** -/
inductive TreatedIdle (t : Tokenizer σ) (here width : Nat) (c : Char) (u : Tokenizer σ) :
    Bool → Prop
  /-- the character is dropped between lexemes -/
  | trimmed (htrim : (t.policies.get c).trim = true) (hrun : t.unmatched = none) (hu : u = t) :
    TreatedIdle t here width c u false
  /-- the character is dropped as it is everywhere -/
  | ignored (htrim : (t.policies.get c).trim = false)
    (hdisallow : (t.policies.get c).disallow = false)
    (hignore : (t.policies.get c).ignore = true) (hu : u = t) :
    TreatedIdle t here width c u false
  /-- the character is reported on its own -/
  | disallowed (htrim : (t.policies.get c).trim = false)
    (hdisallow : (t.policies.get c).disallow = true) (hrun : t.unmatched = none)
    (hresults : u.results = [t.alone here width c]) :
    TreatedIdle t here width c u true
  /-- the unmatched run is reported -/
  | interrupted (run : UnmatchedRun) (hrun : t.unmatched = some run)
    (hwhy : (t.policies.get c).trim = true ∨ (t.policies.get c).disallow = true ∨
      (t.policies.get c).ignore = false ∧ t.beginning c ≠ [])
    (hresults : u.results = [run.ready]) :
    TreatedIdle t here width c u true
  /-- the character joins the unmatched run -/
  | unmatched (htrim : (t.policies.get c).trim = false)
    (hdisallow : (t.policies.get c).disallow = false)
    (hignore : (t.policies.get c).ignore = false) (hbegin : t.beginning c = [])
    (hactive : u.active = []) (hresults : u.results = [])
    (hrun : u.unmatched = some (t.extendedRun here width c)) :
    TreatedIdle t here width c u false
  /-- candidates begin -/
  | begun (htrim : (t.policies.get c).trim = false)
    (hdisallow : (t.policies.get c).disallow = false)
    (hignore : (t.policies.get c).ignore = false) (hbegin : t.beginning c ≠ [])
    (hrun : t.unmatched = none) (hresults : u.results = [])
    (hactive : u.active =
      [⟨0, here, t.lines.current.1, t.lines.current.2, t.beginning c⟩])
    (hsignature : u.signature = [(c, here)]) (hunmatched : u.unmatched = none) :
    TreatedIdle t here width c u false

theorem BucketStep.of_nil {s : Signature} {terminate firstOnly : Bool} {st : Stepped (Bucket σ)}
    (h : BucketStep s here c terminate firstOnly [] st) : st = ⟨[], [], false⟩ := by
  cases h with
  | through => rfl
  | broken front b back kept ready hbs => simp at hbs

theorem Treated.idle {r : Bool} (h : Treated t here width c r u) (hactive : t.active = [])
    (hresults : t.results = []) (hsignature : t.signature = []) :
    TreatedIdle t here width c u r := by
  cases h with
  | trimmed htrim _ hrun => exact .trimmed htrim hrun rfl
  | interrupted hpolicy _ run hrun =>
    refine .interrupted run hrun (hpolicy.imp_right .inl) ?_
    show t.results ++ [run.ready] = _
    rw [hresults]
    rfl
  | disallowed htrim hdisallow _ hrun =>
    refine .disallowed htrim hdisallow hrun ?_
    show t.results ++ [t.alone here width c] = _
    rw [hresults]
    rfl
  | ignored hignore hidle => exact .ignored (hidle hactive).1 (hidle hactive).2 hignore rfl
  | consumed hignore hidle st hst _ _ hout =>
    obtain ⟨htrim, hdisallow⟩ := hidle hactive
    rw [hactive] at hst
    -- without buckets a step gives nothing
    obtain rfl := hst.of_nil
    have hnone : (t.offered here c ⟨[], [], false⟩).results = [] := by simp [offered, hresults]
    cases hout with
    | ready hne => exact absurd hnone hne
    | wasted _ _ hbefore =>
      rw [hsignature] at hbefore
      exact absurd hbefore (Nat.lt_irrefl 0)
    | waiting _ hne => exact absurd rfl hne
    | unmatched _ _ hbegin =>
      exact .unmatched htrim hdisallow hignore hbegin rfl hnone rfl
    | interrupted _ _ hbegin run hrun =>
      refine .interrupted run hrun (.inr (.inr ⟨hignore, hbegin⟩)) ?_
      show (t.offered here c ⟨[], [], false⟩).results ++ [run.ready] = _
      rw [hnone]
      rfl
    | begun _ _ hbegin hrun =>
      refine .begun htrim hdisallow hignore hbegin hrun hnone ?_ ?_ hrun
      · show [] ++ [_] = _
        simp [offered, hsignature]
        rfl
      · show t.signature ++ [(c, here)] = _
        rw [hsignature]
        rfl

/-- **What a character comes to with one bucket.** -/
inductive TreatedLive (t : Tokenizer σ) (b : Bucket σ) (here : Nat) (c : Char) (u : Tokenizer σ) :
    Bool → Prop
  /-- the character is dropped -/
  | ignored (hignore : (t.policies.get c).ignore = true) (hu : u = t) :
    TreatedLive t b here c u false
  /-- lexemes are ready -/
  | ready (hignore : (t.policies.get c).ignore = false) (st : Stepped (Candidate σ))
    (hst : CandidateStep b t.signature here c
      ((t.policies.get c).disallow || (t.policies.get c).terminate) (t.mode.select = .first)
      b.live st)
    (hwhy : st.stopped = true ∨ (t.policies.get c).disallow = true ∨ t.mode.select ≠ .all ∨
      st.kept = [])
    (hresults : u.results = t.results ++ st.ready) (hne : u.results ≠ []) :
    TreatedLive t b here c u true
  /-- every candidate has ended without a lexeme -/
  | wasted (hignore : (t.policies.get c).ignore = false)
    (hst : CandidateStep b t.signature here c
      ((t.policies.get c).disallow || (t.policies.get c).terminate) (t.mode.select = .first)
      b.live ⟨[], [], false⟩)
    (hnone : t.results = []) (hresults : u.results = [t.wasted t.signature.length here]) :
    TreatedLive t b here c u true
  /-- some candidates go on -/
  | onward (hignore : (t.policies.get c).ignore = false) (st : Stepped (Candidate σ))
    (hst : CandidateStep b t.signature here c
      ((t.policies.get c).disallow || (t.policies.get c).terminate) (t.mode.select = .first)
      b.live st)
    (hwhole : st.stopped = false) (hkept : st.kept ≠ [])
    (hwait : t.results ++ st.ready = [] ∨ t.mode.select = .all)
    (hactive : u.active = [{ b with live := st.kept }])
    (hresults : u.results = t.results ++ st.ready)
    (hsignature : u.signature = t.signature ++ [(c, here)])
    (hunmatched : u.unmatched = t.unmatched) :
    TreatedLive t b here c u false

theorem BucketStep.of_singleton {s : Signature} {b : Bucket σ} {terminate firstOnly : Bool}
    {st : Stepped (Bucket σ)} (h : BucketStep s here c terminate firstOnly [b] st) :
    ∃ own, CandidateStep b s here c terminate firstOnly b.live own ∧
      st = ⟨[{ b with live := own.kept }], own.ready, own.stopped⟩ := by
  cases h with
  | through hfirst =>
    refine ⟨_, .through fun h => ?_, ?_⟩
    · simpa using hfirst h
    · simp [Bucket.passed]
  | broken front b' back kept ready hbs hstep =>
    obtain ⟨rfl, rfl, rfl⟩ : front = [] ∧ b' = b ∧ back = [] := by
      cases front with
      | nil =>
        rw [List.nil_append, List.cons.injEq] at hbs
        exact ⟨rfl, hbs.1.symm, hbs.2.symm⟩
      | cons _ front => simp at hbs
    exact ⟨_, hstep, rfl⟩

/-- A character that ends every candidate lets no bucket go on. -/
theorem active_offered_of_terminate {firstOnly : Bool} {st : Stepped (Bucket σ)}
    (hst : BucketStep t.signature here c true firstOnly t.active st) (hwhole : st.stopped = false) :
    (t.offered here c st).active = [] := by
  refine List.filter_eq_nil_iff.2 fun b' hb' => ?_
  obtain ⟨b, hb, live, rfl, hlive⟩ := hst.kept_from hb'
  have hnone : live = [] := List.eq_nil_iff_forall_not_mem.2 fun y hy => by
    obtain ⟨hstop, -⟩ | ⟨x, -, hxy⟩ := hlive y hy
    · exact Bool.noConfusion (hstop.symm.trans hwhole)
    · exact nomatch (Candidate.offered_eq_some_iff.1 hxy).1
  rw [hnone]
  exact Bool.false_ne_true

/-- A bucket whose candidates have ended is given up. -/
theorem active_offered_singleton (t : Tokenizer σ) (here : Nat) (c : Char) (b : Bucket σ)
    (own : Stepped (Candidate σ)) :
    (t.offered here c ⟨[{ b with live := own.kept }], own.ready, own.stopped⟩).active
      = if own.kept = [] then [] else [{ b with live := own.kept }] := by
  rw [offered]
  cases own.kept <;> rfl

/-- The lexeme of the signature does not depend on the character behind it. -/
theorem wasted_offered (t : Tokenizer σ) (here : Nat) (c : Char) (st : Stepped (Bucket σ)) :
    (t.offered here c st).wasted t.signature.length here = t.wasted t.signature.length here := by
  have hfirst : Signature.boundary (t.signature ++ [(c, here)]) here 0
      = t.signature.boundary here 0 := Signature.boundary_snoc _ c here here (Nat.zero_le _)
  have htext : (Signature.text (t.signature ++ [(c, here)])).take t.signature.length
      = t.signature.text.take t.signature.length := by
    rw [Signature.text_append, List.take_append_of_le_length (by simp)]
  simp only [wasted, offered, hfirst, htext]

theorem resultsComplete_iff :
    t.resultsComplete = true ↔ t.mode.select ≠ .all ∨ t.active = [] := by
  rw [resultsComplete]
  cases t.mode.select <;> simp

/-- Behind a signature no candidates begin. -/
theorem Undecided.busy {before : Nat} {stopped disallow : Bool}
    (h : t.Undecided before stopped disallow) (hmode : t.mode.interleaved = false)
    (hbefore : 0 < before) (hidle : t.mode.interleaved = true ∨ t.active = []) : False := by
  rw [hmode] at hidle
  obtain ⟨hzero, -⟩ := h.idle hmode (hidle.resolve_left Bool.false_ne_true)
  exact Nat.ne_of_gt hbefore hzero

theorem Treated.live {r : Bool} (h : Treated t here width c r u) {b : Bucket σ}
    (hactive : t.active = [b]) (hfits : b.Fits t.signature)
    (hmode : t.mode.interleaved = false) : TreatedLive t b here c u r := by
  -- the signature is not empty, so no candidates begin at this character
  have hlength : 0 < t.signature.length := Nat.zero_lt_of_lt hfits.key_lt
  cases h with
  | trimmed _ hnone => simp [hactive] at hnone
  | interrupted _ hnone => simp [hactive] at hnone
  | disallowed _ _ hnone => simp [hactive] at hnone
  | ignored hignore => exact .ignored hignore rfl
  | consumed hignore _ st hst _ _ hout =>
    rw [hactive] at hst
    obtain ⟨own, hown, rfl⟩ := hst.of_singleton
    have hleft := active_offered_singleton t here c b own
    cases hout with
    | ready hne hwhy =>
      refine .ready hignore own hown ?_ rfl hne
      rw [resultsComplete_iff, hleft] at hwhy
      exact hwhy.imp_right (Or.imp_right (Or.imp_right fun h => by
        by_contra hkept
        rw [if_neg hkept] at h
        exact List.cons_ne_nil _ _ h))
    | wasted hnone hresults =>
      have hkept : own.kept = [] := by
        by_contra hkept
        rw [hleft, if_neg hkept] at hnone
        exact List.cons_ne_nil _ _ hnone
      obtain ⟨hold, hready⟩ := List.append_eq_nil_iff.1 hresults
      obtain ⟨kept, ready, stopped⟩ := own
      obtain rfl : kept = [] := hkept
      obtain rfl : ready = [] := hready
      cases stopped with
      | true => exact absurd rfl hown.of_stopped.2
      | false =>
        refine .wasted hignore hown hold ?_
        show (t.results ++ []) ++ [_] = _
        rw [hold, wasted_offered]
        rfl
    | waiting hgo hne =>
      have hkept : own.kept ≠ [] := fun hkept => by
        rw [hleft, if_pos hkept] at hne
        exact hne rfl
      refine .onward hignore own hown hgo.unbroken hkept ?_ ?_ rfl rfl rfl
      · refine hgo.incomplete.imp_right fun h => ?_
        by_contra hselect
        exact Bool.false_ne_true (h.2.symm.trans (resultsComplete_iff.2 (.inl hselect)))
      · rw [hleft, if_neg hkept]
    | unmatched hgo hnone => exact (hgo.busy hmode hlength (.inr hnone)).elim
    | interrupted hgo hidle => exact (hgo.busy hmode hlength hidle).elim
    | begun hgo hidle => exact (hgo.busy hmode hlength hidle).elim

/-! ## Looking for every lexeme

Where a step looks for more than the first lexeme and the policy of a character
lets it pass, the candidates alone tell what comes next. -/

section Every

variable {b : Bucket σ}

/-- A search ends with the lexemes found, or else with the whole signature. A
search that awaits every candidate ends with the last one. -/
theorem TreatedLive.ended (h : TreatedLive t b here c u true) (hselect : t.mode.select ≠ .first)
    (hdisallow : (t.policies.get c).disallow = false)
    (hterminate : (t.policies.get c).terminate = false) :
    t.results ++ b.yielded t.signature here c false b.live ≠ [] ∧
        u.results = t.results ++ b.yielded t.signature here c false b.live ∧
        (t.mode.select = .all → b.goingOn t.signature c false b.live = []) ∨
      t.results ++ b.yielded t.signature here c false b.live = [] ∧
        u.results = [t.wasted t.signature.length here] ∧
        b.goingOn t.signature c false b.live = [] := by
  have hfirst : decide (t.mode.select = .first) = false := decide_eq_false hselect
  have hgo : ((t.policies.get c).disallow || (t.policies.get c).terminate) = false := by
    rw [hdisallow, hterminate]
    rfl
  cases h with
  | ready _ st hst hwhy hresults hne =>
    rw [hfirst, hgo] at hst
    obtain rfl := hst.of_not_firstOnly
    refine .inl ⟨hresults ▸ hne, hresults, fun hall => ?_⟩
    obtain hwhy | hwhy | hwhy | hwhy := hwhy
    · exact nomatch hwhy
    · rw [hdisallow] at hwhy
      exact nomatch hwhy
    · exact absurd hall hwhy
    · exact hwhy
  | wasted _ hst hnone hresults =>
    rw [hfirst, hgo] at hst
    obtain ⟨hkept, hready, -⟩ := Stepped.mk.inj hst.of_not_firstOnly
    exact .inr ⟨by rw [hnone, ← hready]; rfl, hresults, hkept.symm⟩

/-- While some candidates go on, a search waits for them, if it has found
nothing yet or awaits every candidate. -/
theorem TreatedLive.awaited (h : TreatedLive t b here c u false) (hselect : t.mode.select ≠ .first)
    (hdisallow : (t.policies.get c).disallow = false)
    (hterminate : (t.policies.get c).terminate = false)
    (hignore : (t.policies.get c).ignore = false) :
    (t.results ++ b.yielded t.signature here c false b.live = [] ∨ t.mode.select = .all) ∧
      b.goingOn t.signature c false b.live ≠ [] ∧
      u.active = [b.passed t.signature c false] ∧
      u.results = t.results ++ b.yielded t.signature here c false b.live ∧
      u.signature = t.signature ++ [(c, here)] ∧ u.unmatched = t.unmatched := by
  have hfirst : decide (t.mode.select = .first) = false := decide_eq_false hselect
  have hgo : ((t.policies.get c).disallow || (t.policies.get c).terminate) = false := by
    rw [hdisallow, hterminate]
    rfl
  cases h with
  | ignored hyes => exact Bool.noConfusion (hyes.symm.trans hignore)
  | onward _ st hst _ hkept hwait hactive hresults hsignature hunmatched =>
    rw [hfirst, hgo] at hst
    obtain rfl := hst.of_not_firstOnly
    exact ⟨hwait, hkept, hactive, hresults, hsignature, hunmatched⟩

end Every

end Tokenizer

end Lexing
