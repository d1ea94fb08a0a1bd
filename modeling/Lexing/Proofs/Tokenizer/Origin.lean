import Lexing.Proofs.Tokenizer.Sequential

/-!
# Where what a tokenizer holds comes from

After a character every lexeme that waits, every bucket and the unmatched run
were there before, or come from the character in one of a few ways. The ways
are listed once, whatever the mode (`Treated.given`, `Treated.bucket_from`,
`Treated.run_from`), so that a property of all that is held need only be
checked on each of them.
-/

namespace Lexing

variable {σ : Type}

namespace Tokenizer

variable {t u : Tokenizer σ} {here width : Nat} {c : Char}

/-- **How a lexeme may come to wait** when a character is treated. -/
inductive Given (t : Tokenizer σ) (here width : Nat) (c : Char) : Ready → Prop
  /-- it waited before -/
  | waiting {q : Ready} (hq : q ∈ t.results) : Given t here width c q
  /-- a candidate has settled for it -/
  | yielded {q : Ready} (b : Bucket σ) (hb : b ∈ t.active) (x : Candidate σ) (hx : x ∈ b.live)
    (hq : q ∈ b.yield t.signature here x) : Given t here width c q
  /-- it is the character on its own -/
  | alone : Given t here width c (t.alone here width c)
  /-- it is the unmatched run -/
  | run (run : UnmatchedRun) (hrun : t.unmatched = some run) : Given t here width c run.ready
  /-- it is the signature, which no token wanted -/
  | wasted (hlength : 0 < t.signature.length) :
    Given t here width c (t.wasted t.signature.length here)

/-- What waits once a character has been offered. -/
theorem given_of_mem_offered {terminate firstOnly : Bool} {st : Stepped (Bucket σ)}
    (hst : BucketStep t.signature here c terminate firstOnly t.active st) {q : Ready}
    (hq : q ∈ (t.offered here c st).results) : t.Given here width c q := by
  obtain hq | hq := List.mem_append.1 hq
  · exact .waiting hq
  · obtain ⟨b, hb, x, hx, -, hq⟩ := hst.ready_from hq
    exact .yielded b hb x hx hq

/-- **Where the lexemes come from** that wait after a character. -/
theorem Treated.given {r : Bool} (h : Treated t here width c r u) {q : Ready}
    (hq : q ∈ u.results) : t.Given here width c q := by
  cases h with
  | trimmed => exact .waiting hq
  | ignored => exact .waiting hq
  | interrupted _ _ run hrun =>
    obtain hq | hq := List.mem_append.1 hq
    · exact .waiting hq
    · rw [List.mem_singleton.1 hq]
      exact .run run hrun
  | disallowed =>
    obtain hq | hq := List.mem_append.1 hq
    · exact .waiting hq
    · rw [List.mem_singleton.1 hq]
      exact .alone
  | consumed _ _ st hst _ _ hout =>
    cases hout with
    | ready => exact given_of_mem_offered hst hq
    | waiting => exact given_of_mem_offered hst hq
    | unmatched => exact given_of_mem_offered hst hq
    | begun => exact given_of_mem_offered hst hq
    | wasted _ _ hlength =>
      obtain hq | hq := List.mem_append.1 hq
      · exact given_of_mem_offered hst hq
      · rw [List.mem_singleton.1 hq, wasted_offered]
        exact .wasted hlength
    | interrupted _ _ _ run hrun =>
      obtain hq | hq := List.mem_append.1 hq
      · exact given_of_mem_offered hst hq
      · rw [List.mem_singleton.1 hq]
        exact .run run hrun

/-- A bucket that has been there, with candidates of the same tokens. -/
def Descends (b a : Bucket σ) : Prop :=
  ∃ live, b = { a with live } ∧ ∀ y ∈ live, ∃ x ∈ a.live, y.token = x.token

theorem Descends.refl (b : Bucket σ) : Descends b b := ⟨b.live, rfl, fun y hy => ⟨y, hy, rfl⟩⟩

theorem descends_of_mem_offered {terminate firstOnly : Bool} {st : Stepped (Bucket σ)}
    (hst : BucketStep t.signature here c terminate firstOnly t.active st) {b : Bucket σ}
    (hb : b ∈ (t.offered here c st).active) : ∃ a ∈ t.active, Descends b a := by
  obtain ⟨a, ha, live, rfl, hlive⟩ := hst.kept_from (List.mem_of_mem_filter hb)
  refine ⟨a, ha, live, rfl, fun y hy => ?_⟩
  obtain ⟨-, hy⟩ | ⟨x, hx, hxy⟩ := hlive y hy
  · exact ⟨y, hy, rfl⟩
  · obtain ⟨-, st', -, rfl⟩ := Candidate.offered_eq_some_iff.1 hxy
    exact ⟨x, hx, rfl⟩

/-- The bucket that begins with a character. -/
def newBucket (t : Tokenizer σ) (here : Nat) (c : Char) : Bucket σ :=
  ⟨t.signature.length, here, t.lines.current.1, t.lines.current.2, t.beginning c⟩

/-- **Where the buckets come from** that are active after a character. -/
theorem Treated.bucket_from {r : Bool} (h : Treated t here width c r u) {b : Bucket σ}
    (hb : b ∈ u.active) : (∃ a ∈ t.active, Descends b a) ∨ b = t.newBucket here c := by
  cases h with
  | trimmed => exact .inl ⟨b, hb, .refl b⟩
  | ignored => exact .inl ⟨b, hb, .refl b⟩
  | interrupted => exact .inl ⟨b, hb, .refl b⟩
  | disallowed => exact .inl ⟨b, hb, .refl b⟩
  | consumed _ _ st hst _ _ hout =>
    cases hout with
    | ready => exact .inl (descends_of_mem_offered hst hb)
    | waiting => exact .inl (descends_of_mem_offered hst hb)
    | unmatched => exact .inl (descends_of_mem_offered hst hb)
    | wasted => exact .inl (descends_of_mem_offered hst hb)
    | interrupted => exact .inl (descends_of_mem_offered hst hb)
    | begun =>
      obtain hb | hb := List.mem_append.1 hb
      · exact .inl (descends_of_mem_offered hst hb)
      · have hkey : (t.signature ++ [(c, here)]).length - 1 = t.signature.length := by
          rw [List.length_append, List.length_singleton, Nat.add_sub_cancel]
        refine .inr ((List.mem_singleton.1 hb).trans ?_)
        show (⟨(t.signature ++ [(c, here)]).length - 1, here, _, _, _⟩ : Bucket σ) = _
        rw [hkey]
        rfl

/-- **Where the unmatched run comes from** that is left after a character. -/
theorem Treated.run_from {r : Bool} (h : Treated t here width c r u) {run : UnmatchedRun}
    (hrun : u.unmatched = some run) :
    t.unmatched = some run ∨ run = t.extendedRun here width c := by
  cases h with
  | trimmed => exact .inl hrun
  | ignored => exact .inl hrun
  | interrupted => exact nomatch hrun
  | disallowed => exact .inl hrun
  | consumed _ _ st hst _ _ hout =>
    cases hout with
    | ready => exact .inl hrun
    | waiting => exact .inl hrun
    | wasted => exact .inl hrun
    | begun => exact .inl hrun
    | interrupted => exact nomatch hrun
    | unmatched => exact .inr (Option.some.inj hrun).symm

end Tokenizer

end Lexing
