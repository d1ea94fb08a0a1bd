import Mathlib.Data.List.Forall2
import Lexing.Proofs.Tokenizer.Heard
import Lexing.Proofs.Tokenizer.Origin

/-!
# What a unit does to the candidates

Which candidates go on with a unit, which begin with it and what the signature
is then depends neither on the lines that a tokenizer knows nor on the lexemes
that wait. A tokenizer that is the same up to these is beside the first
(`Beside`), and everything that is reported on the way leads to one beside.

So what a unit does to the candidates can be told without asking whether the
offsets are in order (`heeded_of_feed`). It holds in a tokenizer that has been
moved before its start, too, where a report may meet a fault: only what feeding
comes to when it meets none is told here.
-/

namespace Lexing

variable {σ : Type}

namespace Tokenizer

variable {t u v : Tokenizer σ} {here width : Nat} {c : Char} {r : Bool}

/-- **A tokenizer beside another** differs from it at most in the lines that it
knows and in what it reports. -/
def Beside (t u : Tokenizer σ) : Prop :=
  ∃ lines newlineRun results unmatched, u = { t with lines, newlineRun, results, unmatched }

theorem Beside.refl (t : Tokenizer σ) : t.Beside t := ⟨_, _, _, _, rfl⟩

theorem Beside.trans (h : t.Beside u) (h' : u.Beside v) : t.Beside v := by
  obtain ⟨_, _, _, _, rfl⟩ := h
  obtain ⟨lines, newlineRun, results, unmatched, rfl⟩ := h'
  exact ⟨lines, newlineRun, results, unmatched, rfl⟩

theorem Beside.active_eq (h : t.Beside u) : u.active = t.active := by
  obtain ⟨_, _, _, _, rfl⟩ := h
  rfl

theorem Beside.policies_eq (h : t.Beside u) : u.policies = t.policies := by
  obtain ⟨_, _, _, _, rfl⟩ := h
  rfl

/-! ## What is reported and noted -/

theorem beside_of_report {start stop line lineStart : Nat} {text : List Char}
    (h : t.report start stop line lineStart text = .ok u) : t.Beside u := by
  obtain ⟨lexeme, -, h⟩ := exists_of_bind_eq_ok h
  obtain rfl := Except.ok.inj h
  exact ⟨_, _, _, _, rfl⟩

theorem beside_of_flushUnmatched (h : t.flushUnmatched = .ok (r, u)) : t.Beside u := by
  rw [flushUnmatched] at h
  split at h
  · obtain ⟨-, rfl⟩ := Prod.mk.inj (Except.ok.inj h)
    exact .refl _
  · obtain ⟨w, hreport, h⟩ := exists_of_bind_eq_ok h
    obtain ⟨-, rfl⟩ := Prod.mk.inj (Except.ok.inj h)
    exact Beside.trans ⟨_, _, _, _, rfl⟩ (beside_of_report hreport)

theorem beside_of_flushSignature {length stop : Nat} (h : t.flushSignature length stop = .ok u) :
    t.Beside u := by
  obtain ⟨start, -, h⟩ := exists_of_bind_eq_ok h
  obtain ⟨text, -, h⟩ := exists_of_bind_eq_ok h
  exact beside_of_report h

theorem beside_of_trackLines (h : t.trackLines here c = .ok u) : t.Beside u := by
  rw [trackLines] at h
  split at h
  · obtain rfl := Except.ok.inj h
    exact ⟨_, _, _, _, rfl⟩
  split at h
  · obtain rfl := Except.ok.inj h
    exact .refl _
  split at h
  · obtain rfl := Except.ok.inj h
    exact ⟨_, _, _, _, rfl⟩
  · cases h

/-! ## Candidates that are offered a character -/

theorem descends_of_stepCandidates {b : Bucket σ} {s : Signature} {text : List Char}
    {terminate firstOnly : Bool} {xs : List (Candidate σ)} {st : Stepped (Candidate σ)}
    (h : stepCandidates b s text c terminate firstOnly xs = .ok st) :
    ∀ y ∈ st.kept, ∃ x ∈ xs, y.token = x.token := by
  induction xs generalizing st with
  | nil =>
    obtain rfl := Except.ok.inj h
    exact fun y hy => nomatch hy
  | cons x xs ih =>
    obtain ⟨later, hlater, h⟩ := exists_of_bind_eq_ok h
    have hrest (y : Candidate σ) (hy : y ∈ later.kept) : ∃ x' ∈ x :: xs, y.token = x'.token := by
      obtain ⟨x', hx', htoken⟩ := ih hlater y hy
      exact ⟨x', List.mem_cons_of_mem _ hx', htoken⟩
    split at h
    -- the step was broken off behind this candidate
    · obtain rfl := Except.ok.inj h
      exact List.forall_mem_cons.2 ⟨⟨x, List.mem_cons_self, rfl⟩, hrest⟩
    split at h
    next x' hx =>
      obtain rfl := Except.ok.inj h
      obtain ⟨-, st', -, rfl⟩ := Candidate.offered_eq_some_iff.1 hx
      exact List.forall_mem_cons.2 ⟨⟨x, List.mem_cons_self, rfl⟩, hrest⟩
    next =>
      obtain ⟨ready, -, h⟩ := exists_of_bind_eq_ok h
      obtain rfl := Except.ok.inj h
      exact hrest

/-- **Each bucket goes on in its place**, with candidates that it had. -/
theorem descends_of_stepBuckets {s : Signature} {terminate firstOnly : Bool}
    {bs : List (Bucket σ)} {st : Stepped (Bucket σ)}
    (h : stepBuckets s c terminate firstOnly bs = .ok st) : List.Forall₂ Descends st.kept bs := by
  induction bs generalizing st with
  | nil =>
    obtain rfl := Except.ok.inj h
    exact .nil
  | cons b bs ih =>
    obtain ⟨text, -, h⟩ := exists_of_bind_eq_ok h
    obtain ⟨own, hown, h⟩ := exists_of_bind_eq_ok h
    have hb : Descends { b with live := own.kept } b :=
      ⟨own.kept, rfl, descends_of_stepCandidates hown⟩
    dsimp only at h
    split at h
    · obtain rfl := Except.ok.inj h
      exact .cons hb (List.forall₂_same.2 fun b _ => .refl b)
    · obtain ⟨later, hlater, h⟩ := exists_of_bind_eq_ok h
      obtain rfl := Except.ok.inj h
      exact .cons hb (ih hlater)

theorem starts_of_descends {kept bs : List (Bucket σ)} (h : List.Forall₂ Descends kept bs) :
    kept.map (·.start) = bs.map (·.start) := by
  induction h with
  | nil => rfl
  | cons hb _ ih =>
    obtain ⟨live, rfl, -⟩ := hb
    rw [List.map_cons, List.map_cons, ih]

theorem exists_descends_of_mem {kept bs : List (Bucket σ)} (h : List.Forall₂ Descends kept bs)
    {b : Bucket σ} (hb : b ∈ kept) : ∃ a ∈ bs, Descends b a := by
  induction h with
  | nil => exact nomatch hb
  | cons hfirst _ ih =>
    obtain rfl | hb := List.mem_cons.1 hb
    · exact ⟨_, List.mem_cons_self, hfirst⟩
    · obtain ⟨a, ha, hab⟩ := ih hb
      exact ⟨a, List.mem_cons_of_mem _ ha, hab⟩

/-! ## Candidates that begin -/

/-- The tokenizer after candidates have begun, on some line. -/
def opened (t : Tokenizer σ) (here line lineStart : Nat) (c : Char) : Tokenizer σ :=
  { t with
    active := t.active ++ [⟨t.signature.length - 1, here, line, lineStart, t.beginning c⟩] }

theorem Beside.opened (h : t.Beside u) {line lineStart : Nat} :
    (t.opened here line lineStart c).Beside (u.opened here line lineStart c) := by
  obtain ⟨_, _, _, _, rfl⟩ := h
  exact ⟨_, _, _, _, rfl⟩

theorem beside_of_start (h : t.start here width c = .ok (r, u)) :
    t.Beside u ∨ t.beginning c ≠ [] ∧
      ∃ line lineStart, (t.opened here line lineStart c).Beside u := by
  rw [start] at h
  by_cases hbegin : t.beginning c = []
  · rw [hbegin] at h
    obtain ⟨-, rfl⟩ := Prod.mk.inj (Except.ok.inj h)
    refine .inl ?_
    split
    · exact ⟨_, _, _, _, rfl⟩
    · exact .refl t
  · rw [if_neg (by simpa using hbegin)] at h
    obtain ⟨⟨flushed, w⟩, hflush, h⟩ := exists_of_bind_eq_ok h
    obtain ⟨lines, newlineRun, results, unmatched, rfl⟩ := beside_of_flushUnmatched hflush
    cases flushed with
    | true =>
      obtain ⟨-, rfl⟩ := Prod.mk.inj (Except.ok.inj h)
      exact .inl ⟨_, _, _, _, rfl⟩
    | false =>
      obtain ⟨-, rfl⟩ := Prod.mk.inj (Except.ok.inj h)
      exact .inr ⟨hbegin, _, _, _, _, _, _, rfl⟩

/-- **The end of a step leads beside**, or to candidates that begin. Without
interleaving they begin only where the signature was empty before. -/
theorem beside_of_conclude {before : Nat} {stopped disallow : Bool}
    (h : t.conclude before here width c stopped disallow = .ok (r, u)) :
    t.Beside u ∨ t.beginning c ≠ [] ∧ (t.mode.interleaved = true ∨ before = 0) ∧
      ∃ line lineStart, (t.opened here line lineStart c).Beside u := by
  have hself (h : (.ok (true, t) : Except Fault _) = .ok (r, u)) : t.Beside u := by
    obtain ⟨-, rfl⟩ := Prod.mk.inj (Except.ok.inj h)
    exact .refl t
  rw [conclude] at h
  cases stopped with
  | true => exact .inl (hself h)
  | false =>
    rw [if_neg Bool.false_ne_true] at h
    split at h
    · exact .inl (hself h)
    next hready =>
    split at h
    · obtain ⟨w, hflush, h⟩ := exists_of_bind_eq_ok h
      obtain ⟨-, rfl⟩ := Prod.mk.inj (Except.ok.inj h)
      exact .inl (beside_of_flushSignature hflush)
    next hwasted =>
    have hgo := undecided_of_goes_on hready hwasted
    split at h
    next hstart =>
      rw [Bool.or_eq_true, List.isEmpty_iff] at hstart
      obtain hu | ⟨hbegin, hopened⟩ := beside_of_start h
      · exact .inl hu
      refine .inr ⟨hbegin, ?_, hopened⟩
      cases hmode : t.mode.interleaved with
      | true => exact .inl rfl
      | false => exact .inr (hgo.idle hmode (hstart.resolve_left (by simp [hmode]))).1
    next =>
      obtain ⟨-, rfl⟩ := Prod.mk.inj (Except.ok.inj h)
      exact .inl (.refl t)

/-! ## Units -/

/-- The tokenizer after a unit, with the candidates that go on. -/
def heeding (t : Tokenizer σ) (unit : UInt32) (kept : List (Bucket σ)) : Tokenizer σ :=
  { t.step with
    signature := t.step.signature ++ [(leadToChar unit, t.position)]
    active := kept.filter (!·.live.isEmpty) }

/-- **What feeding a unit does to the candidates.** -/
inductive Heeded (t : Tokenizer σ) (unit : UInt32) : Tokenizer σ → Prop
  /-- they do not hear of it -/
  | passed (hidle : Silent t.encoding t.policies unit ∨ t.active = []) {u : Tokenizer σ}
    (hu : t.step.Beside u) : Heeded t unit u
  /-- some go on -/
  | offered (hloud : ¬Silent t.encoding t.policies unit) (kept : List (Bucket σ))
    (hkept : List.Forall₂ Descends kept t.active) {u : Tokenizer σ}
    (hu : (t.heeding unit kept).Beside u) : Heeded t unit u
  /-- some go on, and others begin -/
  | opened (hloud : ¬Silent t.encoding t.policies unit) (kept : List (Bucket σ))
    (hkept : List.Forall₂ Descends kept t.active)
    (hbegin : t.beginning (leadToChar unit) ≠ [])
    (hmode : t.mode.interleaved = true ∨ t.step.signature = []) (line lineStart : Nat)
    {u : Tokenizer σ} (hu : ((t.heeding unit kept).opened t.position line lineStart
      (leadToChar unit)).Beside u) : Heeded t unit u

/-- **Feeding a unit**, if it meets no fault, does one of three things to the
candidates. -/
theorem heeded_of_feed {unit : UInt32} (h : t.feed unit = .ok (r, u)) : Heeded t unit u := by
  rw [feed] at h
  dsimp only at h
  split at h
  next hunit =>
    obtain ⟨-, rfl⟩ := Prod.mk.inj (Except.ok.inj h)
    exact .passed (.inl (.inl hunit)) (.refl _)
  next hunit =>
  obtain ⟨w, htrack, h⟩ := exists_of_bind_eq_ok h
  have hw := beside_of_trackLines htrack
  rw [feedChar] at h
  dsimp only at h
  split at h
  next htrim =>
    rw [Bool.and_eq_true, List.isEmpty_iff, hw.active_eq] at htrim
    have hidle : t.active = [] := htrim.2
    exact .passed (.inr hidle) (hw.trans (beside_of_flushUnmatched h))
  split at h
  next hdisallow =>
    rw [Bool.and_eq_true, List.isEmpty_iff, hw.active_eq] at hdisallow
    obtain ⟨⟨flushed, w'⟩, hflush, h⟩ := exists_of_bind_eq_ok h
    have hw' := hw.trans (beside_of_flushUnmatched hflush)
    have hidle : t.active = [] := hdisallow.2
    refine .passed (.inr hidle) ?_
    dsimp only at h
    split at h
    · obtain ⟨-, rfl⟩ := Prod.mk.inj (Except.ok.inj h)
      exact hw'
    · obtain ⟨u', hreport, h⟩ := exists_of_bind_eq_ok h
      obtain ⟨-, rfl⟩ := Prod.mk.inj (Except.ok.inj h)
      exact hw'.trans (beside_of_report hreport)
  split at h
  next hignore =>
    obtain ⟨-, rfl⟩ := Prod.mk.inj (Except.ok.inj h)
    rw [hw.policies_eq] at hignore
    have hsilent : Silent t.encoding t.policies unit := .inr hignore
    exact .passed (.inl hsilent) hw
  next hignore =>
  have hloud : ¬Silent t.encoding t.policies unit := by
    rw [hw.policies_eq] at hignore
    exact not_or.2 ⟨hunit, hignore⟩
  rw [consume_eq] at h
  obtain ⟨st, hst, h⟩ := exists_of_bind_eq_ok h
  obtain ⟨lines, newlineRun, results, unmatched, rfl⟩ := hw
  have hkept := descends_of_stepBuckets hst
  have hoffered : (t.heeding unit st.kept).Beside
      (({ t.step with lines, newlineRun, results, unmatched } : Tokenizer σ).offered t.position
        (leadToChar unit) st) := ⟨_, _, _, _, rfl⟩
  obtain hu | ⟨hbegin, hmode, line, lineStart, hu⟩ := beside_of_conclude h
  · exact .offered hloud st.kept hkept (hoffered.trans hu)
  · exact .opened hloud st.kept hkept hbegin (hmode.imp_right List.length_eq_zero_iff.1) line
      lineStart (hoffered.opened.trans hu)

/-- Units are read on as before, from the next place. -/
theorem Heeded.setup {unit : UInt32} (h : Heeded t unit u) :
    u.encoding = t.encoding ∧ u.policies = t.policies ∧ u.position = t.position + 1 := by
  cases h with
  | passed _ hu =>
    obtain ⟨_, _, _, _, rfl⟩ := hu
    exact ⟨rfl, rfl, rfl⟩
  | offered _ _ _ hu =>
    obtain ⟨_, _, _, _, rfl⟩ := hu
    exact ⟨rfl, rfl, rfl⟩
  | opened _ _ _ _ _ _ _ hu =>
    obtain ⟨_, _, _, _, rfl⟩ := hu
    exact ⟨rfl, rfl, rfl⟩

/-- At the end of the stream no candidate is left, and no signature. -/
theorem beside_of_finish (h : t.finish = .ok (r, u)) :
    Beside { t with active := [], signature := [] } u := by
  have hlast (w : Tokenizer σ) (hw : Beside { t with active := [] } w)
      (h : (w.flushUnmatched.bind fun p =>
        .ok (!p.2.results.isEmpty, { p.2 with signature := [] })) = .ok (r, u)) :
      Beside { t with active := [], signature := [] } u := by
    obtain ⟨p, hflush, h⟩ := exists_of_bind_eq_ok h
    obtain ⟨-, rfl⟩ := Prod.mk.inj (Except.ok.inj h)
    obtain ⟨_, _, _, _, hp⟩ := hw.trans (beside_of_flushUnmatched hflush)
    rw [hp]
    exact ⟨_, _, _, _, rfl⟩
  rw [finish] at h
  obtain ⟨ready, -, h⟩ := exists_of_bind_eq_ok h
  dsimp only at h
  split at h
  · obtain ⟨w, hflush, h⟩ := exists_of_bind_eq_ok h
    exact hlast w (Beside.trans ⟨_, _, _, _, rfl⟩ (beside_of_flushSignature hflush)) h
  · exact hlast _ ⟨_, _, _, _, rfl⟩ h

end Tokenizer

end Lexing
