import Lexing.Proofs.Tokenizer.Bucket
import Lexing.Tokenizer

/-!
# Offering a character to the candidates

A step either goes through all candidates or is broken off at the first lexeme.
In both cases what goes on and what is given can be read off the candidates
that were there: those that take the character go on, the others yield what
they have settled for, and a step that is broken off leaves the candidates
before the break as they were.
-/

namespace Lexing

variable {σ : Type}

/-- A candidate after a character, unless the character ends every candidate. -/
def Candidate.offered (x : Candidate σ) (text : List Char) (c : Char) (terminate : Bool) :
    Option (Candidate σ) :=
  if terminate then none else x.advance? text c

theorem Candidate.offered_eq_some_iff {x y : Candidate σ} {text : List Char} {c : Char}
    {terminate : Bool} :
    x.offered text c terminate = some y ↔
      terminate = false ∧ ∃ st, x.token.advance x.state text c = some st ∧
        y = { x with
          state := st
          fallback :=
            if x.token.isValid st (text ++ [c]) then some (text.length + 1, st)
            else x.fallback } := by
  rw [offered]
  cases terminate with
  | true => simp
  | false =>
    rw [if_neg Bool.false_ne_true, advance?, Option.map_eq_some_iff]
    simp only [true_and, eq_comm (a := y)]

namespace Bucket

/-- The candidates among `xs` that take a character. -/
def goingOn (b : Bucket σ) (s : Signature) (c : Char) (terminate : Bool)
    (xs : List (Candidate σ)) : List (Candidate σ) :=
  xs.filterMap (·.offered (b.text s) c terminate)

/-- What the others yield, the last one first. -/
def yielded (b : Bucket σ) (s : Signature) (here : Nat) (c : Char) (terminate : Bool)
    (xs : List (Candidate σ)) : List Ready :=
  (xs.reverse.filter fun x => (x.offered (b.text s) c terminate).isNone).flatMap (b.yield s here)

/-- The bucket of those that go on. -/
def passed (b : Bucket σ) (s : Signature) (c : Char) (terminate : Bool) : Bucket σ :=
  { b with live := b.goingOn s c terminate b.live }

variable {b : Bucket σ} {s : Signature} {here : Nat} {c : Char} {terminate : Bool}
variable {x y : Candidate σ} {xs : List (Candidate σ)}

theorem goingOn_cons_of_some (h : x.offered (b.text s) c terminate = some y) :
    b.goingOn s c terminate (x :: xs) = y :: b.goingOn s c terminate xs :=
  List.filterMap_cons_some h

theorem goingOn_cons_of_none (h : x.offered (b.text s) c terminate = none) :
    b.goingOn s c terminate (x :: xs) = b.goingOn s c terminate xs :=
  List.filterMap_cons_none h

theorem yielded_cons_of_some (h : x.offered (b.text s) c terminate = some y) :
    b.yielded s here c terminate (x :: xs) = b.yielded s here c terminate xs := by
  simp [yielded, h]

theorem yielded_cons_of_none (h : x.offered (b.text s) c terminate = none) :
    b.yielded s here c terminate (x :: xs)
      = b.yielded s here c terminate xs ++ b.yield s here x := by
  simp [yielded, h]

theorem mem_yielded {r : Ready} :
    r ∈ b.yielded s here c terminate xs ↔
      ∃ x ∈ xs, x.offered (b.text s) c terminate = none ∧ r ∈ b.yield s here x := by
  simp only [yielded, List.mem_flatMap, List.mem_filter, List.mem_reverse,
    Option.isNone_iff_eq_none, and_assoc]

theorem yielded_eq_nil_iff : b.yielded s here c terminate xs = [] ↔
    ∀ x ∈ xs, x.offered (b.text s) c terminate = none → b.yield s here x = [] := by
  simp only [yielded, List.flatMap_eq_nil_iff, List.mem_filter, List.mem_reverse,
    Option.isNone_iff_eq_none, and_imp]

end Bucket

open Bucket

namespace Tokenizer

/-! ## One bucket -/

/-- **What a step over the candidates of a bucket comes to.** -/
inductive CandidateStep (b : Bucket σ) (s : Signature) (here : Nat) (c : Char)
    (terminate firstOnly : Bool) (xs : List (Candidate σ)) : Stepped (Candidate σ) → Prop
  /-- every candidate was offered the character -/
  | through (hfirst : firstOnly = true → b.yielded s here c terminate xs = []) :
    CandidateStep b s here c terminate firstOnly xs
      ⟨b.goingOn s c terminate xs, b.yielded s here c terminate xs, false⟩
  /-- a lexeme broke the step off -/
  | broken (front : List (Candidate σ)) (x : Candidate σ) (back : List (Candidate σ))
    (hxs : xs = front ++ x :: back) (hfirst : firstOnly = true)
    (hback : b.yielded s here c terminate back = [])
    (hx : x.offered (b.text s) c terminate = none) (hne : b.yield s here x ≠ []) :
    CandidateStep b s here c terminate firstOnly xs
      ⟨front ++ b.goingOn s c terminate back, b.yield s here x, true⟩

variable {b : Bucket σ} {s : Signature} {here floor : Nat} {c : Char} {terminate firstOnly : Bool}

theorem stepCandidates_total (hb : b.Fits s) (hw : s.Within floor here) (c : Char)
    (terminate firstOnly : Bool) (xs : List (Candidate σ)) (hxs : ∀ x ∈ xs, x ∈ b.live) :
    ∃ st, stepCandidates b (s ++ [(c, here)]) (b.text s) c terminate firstOnly xs = .ok st ∧
      CandidateStep b s here c terminate firstOnly xs st := by
  induction xs with
  | nil => exact ⟨_, rfl, .through fun _ => rfl⟩
  -- the candidates behind come first: the step goes through the list from its end
  | cons x xs ih =>
    obtain ⟨st, hst, hspec⟩ := ih fun y hy => hxs y (List.mem_cons_of_mem _ hy)
    rw [stepCandidates, hst]
    cases hspec with
    | broken front z back hsplit hfirst hback hz hne =>
      exact ⟨_, rfl, .broken (x :: front) z back (by rw [hsplit]; rfl) hfirst hback hz hne⟩
    | through hfirst =>
      have hfinish := hb.finish_snoc hw c (hxs x List.mem_cons_self)
      cases hx : x.offered (b.text s) c terminate with
      | some y =>
        refine ⟨⟨y :: b.goingOn s c terminate xs, b.yielded s here c terminate xs, false⟩, ?_, ?_⟩
        · rw [Candidate.offered] at hx
          simp only [bind, Except.bind, hx]
          rfl
        · rw [← goingOn_cons_of_some hx, ← yielded_cons_of_some hx]
          refine .through fun h => ?_
          rw [yielded_cons_of_some hx]
          exact hfirst h
      | none =>
        refine ⟨⟨b.goingOn s c terminate xs, b.yielded s here c terminate xs ++ b.yield s here x,
          firstOnly && !(b.yield s here x).isEmpty⟩, ?_, ?_⟩
        · rw [Candidate.offered] at hx
          simp only [bind, Except.bind, hx, hfinish]
          rfl
        -- the step breaks off here exactly if a first lexeme was looked for
        · cases hstop : firstOnly && !(b.yield s here x).isEmpty with
          | false =>
            rw [← goingOn_cons_of_none hx, ← yielded_cons_of_none hx]
            refine .through fun h => ?_
            rw [h, Bool.true_and, Bool.not_eq_false', List.isEmpty_iff] at hstop
            rw [yielded_cons_of_none hx, hfirst h, hstop]
            rfl
          | true =>
            rw [Bool.and_eq_true, Bool.not_eq_true', List.isEmpty_eq_false_iff] at hstop
            rw [hfirst hstop.1]
            exact .broken [] x xs rfl hstop.1 (hfirst hstop.1) hx hstop.2

/-- What goes on was there before, or comes from what was there. -/
theorem CandidateStep.kept_from {xs : List (Candidate σ)} {st : Stepped (Candidate σ)}
    (h : CandidateStep b s here c terminate firstOnly xs st) {y : Candidate σ} (hy : y ∈ st.kept) :
    st.stopped = true ∧ y ∈ xs ∨ ∃ x ∈ xs, x.offered (b.text s) c terminate = some y := by
  cases h with
  | through => exact .inr (List.mem_filterMap.1 hy)
  | broken front x back hxs =>
    obtain hy | hy := List.mem_append.1 hy
    · exact .inl ⟨rfl, by simp [hxs, hy]⟩
    · obtain ⟨z, hz, hzy⟩ := List.mem_filterMap.1 hy
      exact .inr ⟨z, by simp [hxs, hz], hzy⟩

/-- What is given comes from candidates that do not go on. -/
theorem CandidateStep.ready_from {xs : List (Candidate σ)} {st : Stepped (Candidate σ)}
    (h : CandidateStep b s here c terminate firstOnly xs st) {r : Ready} (hr : r ∈ st.ready) :
    ∃ x ∈ xs, x.offered (b.text s) c terminate = none ∧ r ∈ b.yield s here x := by
  cases h with
  | through => exact mem_yielded.1 hr
  | broken front x back hxs _ _ hx => exact ⟨x, by simp [hxs], hx, hr⟩

/-- Only a step that looks for the first lexeme is broken off, and it gives
one. -/
theorem CandidateStep.of_stopped {xs kept : List (Candidate σ)} {ready : List Ready}
    (h : CandidateStep b s here c terminate firstOnly xs ⟨kept, ready, true⟩) :
    firstOnly = true ∧ ready ≠ [] := by
  cases h with
  | broken front x back hxs hfirst hback hx hne => exact ⟨hfirst, hne⟩

/-- A step that looks for every lexeme goes through all candidates. -/
theorem CandidateStep.of_not_firstOnly {xs : List (Candidate σ)} {st : Stepped (Candidate σ)}
    (h : CandidateStep b s here c terminate false xs st) :
    st = ⟨b.goingOn s c terminate xs, b.yielded s here c terminate xs, false⟩ := by
  cases h with
  | through => rfl
  | broken front x back hxs hfirst => exact nomatch hfirst

/-! ## All buckets -/

/-- **What a step over all buckets comes to.** -/
inductive BucketStep (s : Signature) (here : Nat) (c : Char) (terminate firstOnly : Bool)
    (bs : List (Bucket σ)) : Stepped (Bucket σ) → Prop
  /-- every bucket was offered the character -/
  | through
    (hfirst : firstOnly = true → bs.flatMap (fun b => b.yielded s here c terminate b.live) = []) :
    BucketStep s here c terminate firstOnly bs
      ⟨bs.map (·.passed s c terminate), bs.flatMap fun b => b.yielded s here c terminate b.live,
        false⟩
  /-- a lexeme of one bucket broke the step off -/
  | broken (front : List (Bucket σ)) (b : Bucket σ) (back : List (Bucket σ))
    (kept : List (Candidate σ)) (ready : List Ready) (hbs : bs = front ++ b :: back)
    (hb : CandidateStep b s here c terminate firstOnly b.live ⟨kept, ready, true⟩) :
    BucketStep s here c terminate firstOnly bs
      ⟨front.map (·.passed s c terminate) ++ { b with live := kept } :: back, ready, true⟩

/-- A step that looks for every lexeme goes through all buckets. -/
theorem BucketStep.of_not_firstOnly {bs : List (Bucket σ)} {st : Stepped (Bucket σ)}
    (h : BucketStep s here c terminate false bs st) :
    st = ⟨bs.map (·.passed s c terminate), bs.flatMap fun b => b.yielded s here c terminate b.live,
      false⟩ := by
  cases h with
  | through => rfl
  | broken front b back kept ready hbs hb => exact nomatch hb.of_stopped.1

theorem stepBuckets_total (hw : s.Within floor here) (c : Char) (terminate firstOnly : Bool)
    (bs : List (Bucket σ)) (hbs : ∀ b ∈ bs, b.Fits s) :
    ∃ st, stepBuckets (s ++ [(c, here)]) c terminate firstOnly bs = .ok st ∧
      BucketStep s here c terminate firstOnly bs st := by
  induction bs with
  | nil => exact ⟨_, rfl, .through fun _ => rfl⟩
  | cons b bs ih =>
    have hb := hbs b List.mem_cons_self
    have htext : Signature.textFrom (List.dropLast (s ++ [(c, here)])) b.key = .ok (b.text s) := by
      rw [List.dropLast_concat]
      exact Signature.textFrom_eq (Nat.le_of_lt hb.key_lt)
    obtain ⟨own, hown, hspec⟩ :=
      stepCandidates_total hb hw c terminate firstOnly b.live fun _ hx => hx
    obtain ⟨later, hlater, hrest⟩ := ih fun b' hb' => hbs b' (List.mem_cons_of_mem _ hb')
    simp only [stepBuckets, htext, bind, Except.bind, hown, hlater]
    cases hspec with
    | broken front x back hxs hfirst hback hx hne =>
      exact ⟨_, rfl, .broken [] b bs _ _ rfl (.broken front x back hxs hfirst hback hx hne)⟩
    | through hfirst =>
      refine ⟨_, rfl, ?_⟩
      cases hrest with
      | through hlast =>
        refine .through fun h => ?_
        rw [List.flatMap_cons, hfirst h, hlast h]
        rfl
      | broken front b' back kept ready hbs' hb' =>
        -- a later bucket has broken the step off, so this one gave nothing
        simp only [hfirst hb'.of_stopped.1, List.nil_append]
        exact .broken (b :: front) b' back kept ready (by rw [hbs']; rfl) hb'

/-- A bucket that goes on is one that was there, with other candidates. -/
theorem BucketStep.kept_from {bs : List (Bucket σ)} {st : Stepped (Bucket σ)}
    (h : BucketStep s here c terminate firstOnly bs st) {b' : Bucket σ} (hb' : b' ∈ st.kept) :
    ∃ b ∈ bs, ∃ live, b' = { b with live } ∧ ∀ y ∈ live,
      st.stopped = true ∧ y ∈ b.live ∨
        ∃ x ∈ b.live, x.offered (b.text s) c terminate = some y := by
  cases h with
  | through =>
    obtain ⟨b, hb, rfl⟩ := List.mem_map.1 hb'
    exact ⟨b, hb, _, rfl, fun y hy => .inr (List.mem_filterMap.1 hy)⟩
  | broken front b back kept ready hbs hstep =>
    rw [List.mem_append, List.mem_map, List.mem_cons] at hb'
    obtain ⟨b, hb, rfl⟩ | rfl | hb := hb'
    · exact ⟨b, by simp [hbs, hb], _, rfl, fun y hy => .inr (List.mem_filterMap.1 hy)⟩
    · exact ⟨b, by simp [hbs], kept, rfl, fun y hy => hstep.kept_from hy⟩
    · exact ⟨b', by simp [hbs, hb], b'.live, rfl, fun y hy => .inl ⟨rfl, hy⟩⟩

theorem BucketStep.ready_from {bs : List (Bucket σ)} {st : Stepped (Bucket σ)}
    (h : BucketStep s here c terminate firstOnly bs st) {r : Ready} (hr : r ∈ st.ready) :
    ∃ b ∈ bs, ∃ x ∈ b.live, x.offered (b.text s) c terminate = none ∧ r ∈ b.yield s here x := by
  cases h with
  | through =>
    obtain ⟨b, hb, hr⟩ := List.mem_flatMap.1 hr
    exact ⟨b, hb, mem_yielded.1 hr⟩
  | broken front b back kept ready hbs hstep => exact ⟨b, by simp [hbs], hstep.ready_from hr⟩

theorem BucketStep.ready_of_stopped {bs : List (Bucket σ)} {st : Stepped (Bucket σ)}
    (h : BucketStep s here c terminate firstOnly bs st) (hst : st.stopped = true) :
    st.ready ≠ [] := by
  cases h with
  | through => exact nomatch hst
  | broken front b back kept ready hbs hstep => exact hstep.of_stopped.2

end Tokenizer

end Lexing
