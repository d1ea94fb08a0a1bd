import Lexing.Proofs.Tokenizer.Feed
import Lexing.Proofs.Tokenizer.Sequential

/-!
# The order of buckets and of candidates

A step asks the oldest bucket first, and in a bucket the candidate of the token
registered last. It never changes either order: buckets are added behind the
others, candidates begin in the order of their tokens, and both only ever leave
(`Treated.lined`). So of a step that is broken off it can be told by age and by
rank which candidates were not asked (`BucketStep.kept_or_passed_over`).
-/

namespace Lexing

variable {σ : Type}

/-- **Buckets in line**: the older ones first, and in each the candidates of
the tokens registered first. -/
structure Lined (bs : List (Bucket σ)) : Prop where
  starts : (bs.map (·.start)).Pairwise (· < ·)
  ranks : ∀ b ∈ bs, (b.live.map (·.rank)).Pairwise (· < ·)

theorem lined_nil : Lined ([] : List (Bucket σ)) := ⟨List.Pairwise.nil, fun _ hb => nomatch hb⟩

/-- Some buckets of a line are in line. -/
theorem Lined.sublist {bs bs' : List (Bucket σ)} (h : Lined bs) (hsub : bs'.Sublist bs) :
    Lined bs' :=
  ⟨h.starts.sublist (hsub.map _), fun b hb => h.ranks b (hsub.subset hb)⟩

/-- A younger bucket comes behind the others. -/
theorem Lined.snoc {bs : List (Bucket σ)} (h : Lined bs) {b : Bucket σ}
    (hstart : ∀ a ∈ bs, a.start < b.start) (hranks : (b.live.map (·.rank)).Pairwise (· < ·)) :
    Lined (bs ++ [b]) where
  starts := by
    rw [List.map_append, List.map_singleton, List.pairwise_append]
    refine ⟨h.starts, List.pairwise_singleton _ _, fun i hi j hj => ?_⟩
    obtain ⟨a, ha, rfl⟩ := List.mem_map.1 hi
    rw [List.mem_singleton.1 hj]
    exact hstart a ha
  ranks a ha := by
    obtain ha | ha := List.mem_append.1 ha
    · exact h.ranks a ha
    · rw [List.mem_singleton.1 ha]
      exact hranks

/-! ## A step -/

theorem Candidate.rank_offered {x y : Candidate σ} {text : List Char} {c : Char} {terminate : Bool}
    (h : x.offered text c terminate = some y) : y.rank = x.rank := by
  obtain ⟨-, st, -, rfl⟩ := offered_eq_some_iff.1 h
  rfl

/-- A lexeme starts where its bucket began, and has the rank of its token. -/
theorem Bucket.of_mem_yield {b : Bucket σ} {s : Signature} {stop : Nat} {x : Candidate σ}
    {r : Ready} (h : r ∈ b.yield s stop x) : r.lexeme.start = b.start ∧ r.rank = some x.rank := by
  obtain ⟨n, st, -, rfl⟩ := mem_yield.1 h
  exact ⟨rfl, rfl⟩

/-- Those that go on keep their order. -/
theorem Bucket.ranks_goingOn (b : Bucket σ) (s : Signature) (c : Char) (terminate : Bool)
    (xs : List (Candidate σ)) :
    ((b.goingOn s c terminate xs).map (·.rank)).Sublist (xs.map (·.rank)) := by
  induction xs with
  | nil => exact List.Sublist.slnil
  | cons x xs ih =>
    cases hx : x.offered (b.text s) c terminate with
    | none =>
      rw [goingOn_cons_of_none hx]
      exact ih.cons _
    | some y =>
      rw [goingOn_cons_of_some hx, List.map_cons, List.map_cons, Candidate.rank_offered hx]
      exact ih.cons_cons _

namespace Tokenizer

variable {t u : Tokenizer σ} {floor here width : Nat} {c : Char} {s : Signature}
variable {terminate firstOnly : Bool} {bs : List (Bucket σ)}

theorem CandidateStep.ranks_kept {b : Bucket σ} {xs : List (Candidate σ)}
    {st : Stepped (Candidate σ)} (h : CandidateStep b s here c terminate firstOnly xs st) :
    (st.kept.map (·.rank)).Sublist (xs.map (·.rank)) := by
  cases h with
  | through => exact b.ranks_goingOn s c terminate xs
  | broken front x back hxs =>
    rw [hxs, List.map_append, List.map_append]
    exact (List.Sublist.refl _).append ((b.ranks_goingOn s c terminate back).cons _)

theorem BucketStep.starts_kept {st : Stepped (Bucket σ)}
    (h : BucketStep s here c terminate firstOnly bs st) :
    st.kept.map (·.start) = bs.map (·.start) := by
  cases h with
  | through =>
    show (bs.map (·.passed s c terminate)).map (·.start) = _
    rw [List.map_map]
    rfl
  | broken front b back kept ready hbs =>
    rw [hbs, List.map_append, List.map_append, List.map_map]
    rfl

/-- **A step keeps buckets in line.** -/
theorem BucketStep.lined {st : Stepped (Bucket σ)}
    (h : BucketStep s here c terminate firstOnly bs st) (hbs : Lined bs) : Lined st.kept where
  starts := by
    rw [h.starts_kept]
    exact hbs.starts
  ranks b' hb' := by
    have hpassed (b : Bucket σ) (hb : b ∈ bs) :
        ((b.passed s c terminate).live.map (·.rank)).Pairwise (· < ·) :=
      (hbs.ranks b hb).sublist (b.ranks_goingOn s c terminate b.live)
    cases h with
    | through =>
      obtain ⟨b, hb, rfl⟩ := List.mem_map.1 hb'
      exact hpassed b hb
    | broken front b back kept ready hsplit hstep =>
      rw [List.mem_append, List.mem_map, List.mem_cons] at hb'
      obtain ⟨b, hb, rfl⟩ | rfl | hb := hb'
      · exact hpassed b (by simp [hsplit, hb])
      · exact (hbs.ranks b (by simp [hsplit])).sublist hstep.ranks_kept
      · exact hbs.ranks b' (by simp [hsplit, hb])

/-- **A candidate that a step leaves behind** either has taken the character, or
was not asked: then the step looked for the first lexeme only, and was broken off
by one of an older bucket, or of a token in the same bucket that was registered
later. -/
theorem BucketStep.kept_or_passed_over {st : Stepped (Bucket σ)}
    (h : BucketStep s here c terminate firstOnly bs st) (hbs : Lined bs) {b' : Bucket σ}
    (hb' : b' ∈ st.kept) :
    ∃ b ∈ bs, ∃ live, b' = { b with live } ∧ ∀ y ∈ live,
      (∃ x ∈ b.live, x.offered (b.text s) c terminate = some y) ∨
        firstOnly = true ∧ y ∈ b.live ∧ ∃ r ∈ st.ready, ∃ i, r.rank = some i ∧
          (r.lexeme.start < b.start ∨ r.lexeme.start = b.start ∧ y.rank < i) := by
  cases h with
  | through =>
    obtain ⟨b, hb, rfl⟩ := List.mem_map.1 hb'
    exact ⟨b, hb, _, rfl, fun y hy => .inl (List.mem_filterMap.1 hy)⟩
  | broken front a back kept ready hsplit hstep =>
    have ha : a ∈ bs := by simp [hsplit]
    cases hstep with
    | broken cfront z cback hlive hfirst _ _ hne =>
      obtain ⟨r, hr⟩ := List.exists_mem_of_ne_nil _ hne
      obtain ⟨hstart, hrank⟩ := Bucket.of_mem_yield hr
      rw [List.mem_append, List.mem_map, List.mem_cons] at hb'
      obtain ⟨b, hb, rfl⟩ | rfl | hb := hb'
      · exact ⟨b, by simp [hsplit, hb], _, rfl, fun y hy => .inl (List.mem_filterMap.1 hy)⟩
      -- in the bucket of the lexeme, the candidates before its own were not asked
      · refine ⟨a, ha, _, rfl, fun y hy => ?_⟩
        obtain hy | hy := List.mem_append.1 hy
        · have hranks := hbs.ranks a ha
          rw [hlive, List.map_append, List.map_cons, List.pairwise_append] at hranks
          have hlt : y.rank < z.rank :=
            hranks.2.2 _ (List.mem_map_of_mem hy) _ List.mem_cons_self
          exact .inr ⟨hfirst, by simp [hlive, hy], r, hr, z.rank, hrank, .inr ⟨hstart, hlt⟩⟩
        · obtain ⟨x, hx, hxy⟩ := List.mem_filterMap.1 hy
          exact .inl ⟨x, by simp [hlive, hx], hxy⟩
      · have hstarts := hbs.starts
        rw [hsplit, List.map_append, List.map_cons, List.pairwise_append, List.pairwise_cons]
          at hstarts
        have hlt : a.start < b'.start := hstarts.2.1.1 _ (List.mem_map_of_mem hb)
        exact ⟨b', by simp [hsplit, hb], b'.live, rfl, fun y hy =>
          .inr ⟨hfirst, hy, r, hr, z.rank, hrank, .inl (hstart ▸ hlt)⟩⟩

/-- Candidates begin in the order of their tokens. -/
theorem ranks_beginning (t : Tokenizer σ) (c : Char) :
    ((t.beginning c).map (·.rank)).Pairwise (· < ·) := by
  have hrank (p : Token σ × Nat) (x : Candidate σ)
      (hx : Candidate.begin? p.1 t.reserved p.2 c = some x) : x.rank = p.2 := by
    obtain ⟨st, -, rfl⟩ := Option.map_eq_some_iff.1 hx
    rfl
  have hplaces : t.tokens.zipIdx.Pairwise fun p q => p.2 < q.2 := by
    rw [← List.pairwise_map (f := Prod.snd) (R := (· < ·)), List.zipIdx_map_snd]
    exact List.pairwise_lt_range'
  rw [List.pairwise_map]
  refine List.Pairwise.filterMap _ (fun p q hpq x hx y hy => ?_) hplaces
  rw [hrank p x hx, hrank q y hy]
  exact hpq

/-- A bucket began before the place that has been reached. -/
theorem Between.start_lt (h : t.Between floor here) {b : Bucket σ} (hb : b ∈ t.active) :
    b.start < here := by
  rw [← (h.fits b hb).start_eq here]
  exact h.within.boundary_lt_stop (h.fits b hb).key_lt

/-- **Treating a character keeps buckets in line.** -/
theorem Treated.lined {r : Bool} (h : Treated t here width c r u) (ht : Lined t.active)
    (hb : t.Between floor here) : Lined u.active := by
  cases h with
  | trimmed => exact ht
  | interrupted => exact ht
  | disallowed => exact ht
  | ignored => exact ht
  | consumed _ _ st hst _ _ hout =>
    have hoffered : Lined (t.offered here c st).active := (hst.lined ht).sublist List.filter_sublist
    cases hout with
    | ready => exact hoffered
    | wasted => exact hoffered
    | waiting => exact hoffered
    | unmatched => exact hoffered
    | interrupted => exact hoffered
    | begun =>
      refine hoffered.snoc (fun a ha => ?_) (ranks_beginning _ c)
      obtain ⟨b, hmem, live, rfl, -⟩ := hst.kept_from (List.mem_of_mem_filter ha)
      show b.start < here
      exact hb.start_lt hmem

end Tokenizer

end Lexing
