import Mathlib.Data.List.Forall2
import Lexing.Proofs.Tokenizer.Outcome

/-!
# Two tokenizers whose offsets differ

A tokenizer compares the offsets that it meets, and never asks for more than
their order. So where two tokenizers read the same characters at offsets that
correspond in order, every step of one corresponds to a step of the other
(`Tokenizer.Recoded`): the same conditions hold, the same candidates go on, and
the lexemes have the same tokens, texts, values and lines, from one offset to
the corresponding one (`Tokenizer.Recoded.feedChar`, `Tokenizer.Recoded.finish`).

What a step needs may be missing, and then it ends in a fault. Here the
answers are compared only where there are two (`Agree`), so that the checks on
the way need not be compared.
-/

namespace Lexing

variable {σ : Type}

/-! ## Answers that agree -/

/-- **Two answers agree**, if neither is a fault. -/
def Agree {α β : Type} (S : α → β → Prop) (x : Except Fault α) (y : Except Fault β) : Prop :=
  ∀ a b, x = .ok a → y = .ok b → S a b

namespace Agree

variable {α β γ δ : Type} {S : α → β → Prop} {T : γ → δ → Prop}
  {x : Except Fault α} {y : Except Fault β} {f : α → Except Fault γ} {g : β → Except Fault δ}

theorem ok {a : α} {b : β} (h : S a b) : Agree S (.ok a) (.ok b) := by
  rintro _ _ ⟨⟩ ⟨⟩
  exact h

theorem error_left (e : Fault) (y : Except Fault β) : Agree S (.error e) y :=
  fun _ _ hx => nomatch hx

theorem error_right (x : Except Fault α) (e : Fault) : Agree S x (.error e) :=
  fun _ _ _ hy => nomatch hy

theorem refl (x : Except Fault α) : Agree Eq x x :=
  fun _ _ hx hy => Except.ok.inj (hx.symm.trans hy)

/-- Agreement goes through one step after the other. -/
theorem bind (h : Agree S x y) (hf : ∀ a b, S a b → Agree T (f a) (g b)) :
    Agree T (x >>= f) (y >>= g) := by
  cases x with
  | error e => exact error_left e _
  | ok a =>
    cases y with
    | error e => exact error_right _ e
    | ok b => exact hf a b (h a b rfl rfl)

end Agree

/-! ## Offsets that correspond -/

/-- **Offsets that correspond** are in the same order. -/
structure KeepsOrder (R : Nat → Nat → Prop) : Prop where
  le_iff : ∀ {a i b j}, R a i → R b j → (a ≤ b ↔ i ≤ j)

theorem KeepsOrder.lt_iff {R : Nat → Nat → Prop} (h : KeepsOrder R) {a i b j : Nat} (ha : R a i)
    (hb : R b j) : a < b ↔ i < j := by
  rw [← Nat.not_le, ← Nat.not_le, h.le_iff hb ha]

section Lists

variable {α β : Type} {S : α → β → Prop} {xs : List α} {ys : List β}

theorem isEmpty_congr (h : List.Forall₂ S xs ys) : xs.isEmpty = ys.isEmpty := by
  cases h <;> rfl

theorem rel_getElem? (h : List.Forall₂ S xs ys) (i : Nat) : Option.Rel S xs[i]? ys[i]? := by
  induction h generalizing i with
  | nil => exact .none
  | cons h _ ih =>
    cases i with
    | zero => exact .some h
    | succ i => simpa using ih i

/-- As many offsets come first on both sides. -/
theorem rel_takeWhile_le {R : Nat → Nat → Prop} (hR : KeepsOrder R) {xs ys : List Nat} {p q : Nat}
    (h : List.Forall₂ R xs ys) (hpq : R p q) :
    List.Forall₂ R (xs.takeWhile (· ≤ p)) (ys.takeWhile (· ≤ q)) := by
  induction h with
  | nil => exact .nil
  | cons hab _ ih =>
    simp only [List.takeWhile_cons, hR.le_iff hab hpq]
    split
    · exact .cons hab ih
    · exact .nil

end Lists

variable {R : Nat → Nat → Prop} {p q : Nat}

/-- **Line tables that correspond.** -/
structure LineTable.Recoded (R : Nat → Nat → Prop) (t u : LineTable) : Prop where
  firstLine : t.firstLine = u.firstLine
  later : List.Forall₂ R t.later u.later

namespace LineTable.Recoded

variable {t u : LineTable}

theorem current_eq (h : t.Recoded R u) : t.current.1 = u.current.1 := by
  rw [current, current, h.firstLine, h.later.length_eq]

theorem lookup_eq (h : t.Recoded R u) (hR : KeepsOrder R) (hpq : R p q) :
    (t.lookup p).1 = (u.lookup q).1 := by
  show t.firstLine + t.indexOf p = u.firstLine + u.indexOf q
  rw [h.firstLine, indexOf, indexOf, (rel_takeWhile_le hR h.later hpq).length_eq]

theorem truncateAfter (h : t.Recoded R u) (hR : KeepsOrder R) (hpq : R p q) :
    (t.truncateAfter p).Recoded R (u.truncateAfter q) where
  firstLine := h.firstLine
  later := by
    rw [later_truncateAfter, later_truncateAfter]
    exact rel_takeWhile_le hR h.later hpq

theorem push {t' u' : LineTable} (h : t.Recoded R u) (hpq : R p q) (ht : t.push? p = some t')
    (hu : u.push? q = some u') : t'.Recoded R u' := by
  rw [push?, Option.ite_none_right_eq_some] at ht hu
  obtain ⟨-, ⟨⟩⟩ := ht
  obtain ⟨-, ⟨⟩⟩ := hu
  exact ⟨h.firstLine, List.rel_append h.later (.cons hpq .nil)⟩

end LineTable.Recoded

/-- **Signatures that correspond.** -/
def Signature.Recoded (R : Nat → Nat → Prop) (s u : Signature) : Prop :=
  List.Forall₂ (fun x y => x.1 = y.1 ∧ R x.2 y.2) s u

namespace Signature.Recoded

variable {s u : Signature}

theorem text_eq (h : s.Recoded R u) : s.text = u.text := by
  induction h with
  | nil => rfl
  | cons h _ ih => exact congrArg₂ List.cons h.1 ih

theorem length_eq (h : s.Recoded R u) : s.length = u.length := List.Forall₂.length_eq h

theorem textFrom_eq (h : s.Recoded R u) (key : Nat) : s.textFrom key = u.textFrom key := by
  rw [textFrom, textFrom, text, text, List.map_drop, List.map_drop, ← text, ← text, h.text_eq,
    h.length_eq]

theorem slice_eq (h : s.Recoded R u) (key length : Nat) :
    s.slice key length = u.slice key length := by
  rw [slice, slice, text, text, List.map_take, List.map_take, List.map_drop, List.map_drop, ← text,
    ← text, h.text_eq, h.length_eq]

theorem offsetAt (h : s.Recoded R u) {stop stop' : Option Nat} (hstop : Option.Rel R stop stop')
    (i : Nat) : Agree R (s.offsetAt stop i) (u.offsetAt stop' i) := by
  unfold Signature.offsetAt
  have hget := rel_getElem? h i
  generalize s[i]? = x, u[i]? = y at hget ⊢
  cases hget with
  | some h => exact .ok h.2
  | none =>
    cases hstop with
    | none => exact .error_left _ _
    | some h => exact .ok h

end Signature.Recoded


/-- **Lexemes that correspond**: they differ in their places only. -/
structure Lexeme.Recoded (R : Nat → Nat → Prop) (l k : Lexeme) : Prop where
  token : l.token = k.token
  text : l.text = k.text
  value : l.value = k.value
  line : l.line = k.line
  start : R l.start k.start
  stop : R l.stop k.stop
  start_le : l.start ≤ l.stop

theorem Lexeme.of_make {l : Lexeme} {start stop line lineStart : Nat} {text : List Char}
    {value : Option Value} {token : Option TokenTag}
    (h : make start stop line lineStart text value token = .ok l) :
    start ≤ stop ∧ l = ⟨start, stop, line, start - lineStart, text, value, token⟩ := by
  rw [make] at h
  split at h
  · cases h
  next hle =>
    split at h
    · cases h
    · exact ⟨Nat.le_of_not_lt hle, (Except.ok.inj h).symm⟩

/-- Lexemes are made alike, wherever their lines start. -/
theorem Lexeme.make_agree {start start' stop stop' : Nat} (hstart : R start start')
    (hstop : R stop stop') (line lineStart lineStart' : Nat) (text : List Char)
    (value : Option Value) (token : Option TokenTag) :
    Agree (Lexeme.Recoded R) (make start stop line lineStart text value token)
      (make start' stop' line lineStart' text value token) := by
  intro l k hl hk
  obtain ⟨hle, rfl⟩ := of_make hl
  obtain ⟨-, rfl⟩ := of_make hk
  exact ⟨rfl, rfl, rfl, rfl, hstart, hstop, hle⟩

/-- Waiting lexemes that correspond. -/
structure Ready.Recoded (R : Nat → Nat → Prop) (r r' : Ready) : Prop where
  lexeme : r.lexeme.Recoded R r'.lexeme
  rank : r.rank = r'.rank

/-! ## Candidates -/

/-- Buckets that correspond: they have the very same candidates. -/
structure Bucket.Recoded (R : Nat → Nat → Prop) (b b' : Bucket σ) : Prop where
  key : b.key = b'.key
  start : R b.start b'.start
  line : b.line = b'.line
  live : b.live = b'.live

namespace Bucket.Recoded

variable {b b' : Bucket σ} {s u : Signature}

theorem emit (h : b.Recoded R b') (hs : s.Recoded R u) {stop stop' : Option Nat}
    (hstop : Option.Rel R stop stop') (x : Candidate σ) (length : Nat) (st : σ) :
    Agree (Ready.Recoded R) (b.emit s stop x length st) (b'.emit u stop' x length st) := by
  rw [Bucket.emit, Bucket.emit, hs.slice_eq, h.key, h.line]
  refine (Agree.refl _).bind fun text _ htext => ?_
  subst htext
  refine (hs.offsetAt hstop _).bind fun stop stop' hstop => ?_
  refine (Agree.refl _).bind fun value _ hvalue => ?_
  subst hvalue
  exact (Lexeme.make_agree h.start hstop _ _ _ _ _ _).bind fun l k hl => .ok ⟨hl, rfl⟩

theorem finish (h : b.Recoded R b') (hs : s.Recoded R u) {stop stop' : Option Nat}
    (hstop : Option.Rel R stop stop') (text : List Char) (x : Candidate σ) :
    Agree (List.Forall₂ (Ready.Recoded R)) (b.finish s stop text x) (b'.finish u stop' text x) := by
  rw [Bucket.finish, Bucket.finish]
  cases x.settled text with
  | none => exact .ok .nil
  | some settled => exact (h.emit hs hstop x _ _).bind fun r r' hr => .ok (.cons hr .nil)

end Bucket.Recoded

open Tokenizer

/-- Steps that correspond. -/
structure Tokenizer.Stepped.Recoded {α : Type} (K : α → α → Prop) (R : Nat → Nat → Prop)
    (st st' : Stepped α) : Prop where
  kept : List.Forall₂ K st.kept st'.kept
  ready : List.Forall₂ (Ready.Recoded R) st.ready st'.ready
  stopped : st.stopped = st'.stopped

namespace Tokenizer

theorem stepCandidates_agree {b b' : Bucket σ} {s u : Signature} (hb : b.Recoded R b')
    (hs : s.Recoded R u) (text : List Char) (c : Char) (terminate firstOnly : Bool)
    (xs : List (Candidate σ)) :
    Agree (Stepped.Recoded Eq R) (stepCandidates b s text c terminate firstOnly xs)
      (stepCandidates b' u text c terminate firstOnly xs) := by
  induction xs with
  | nil => exact .ok ⟨.nil, .nil, rfl⟩
  | cons x xs ih =>
    rw [stepCandidates, stepCandidates]
    refine ih.bind fun later later' hlater => ?_
    rw [← hlater.stopped]
    cases later.stopped with
    | true => exact .ok ⟨.cons rfl hlater.kept, hlater.ready, rfl⟩
    | false =>
      cases if terminate then none else x.advance? text c with
      | some y => exact .ok ⟨.cons rfl hlater.kept, hlater.ready, rfl⟩
      | none =>
        refine (hb.finish hs .none text x).bind fun ready ready' hready => .ok ?_
        exact ⟨hlater.kept, List.rel_append hlater.ready hready, by rw [isEmpty_congr hready]⟩

theorem stepBuckets_agree {s u : Signature} (hs : s.Recoded R u) (c : Char)
    (terminate firstOnly : Bool) {bs bs' : List (Bucket σ)}
    (hbs : List.Forall₂ (Bucket.Recoded R) bs bs') :
    Agree (Stepped.Recoded (Bucket.Recoded R) R) (stepBuckets s c terminate firstOnly bs)
      (stepBuckets u c terminate firstOnly bs') := by
  have hlast : Signature.Recoded R s.dropLast u.dropLast := by
    rw [List.dropLast_eq_take, List.dropLast_eq_take, hs.length_eq]
    exact List.forall₂_take _ hs
  induction hbs with
  | nil => exact .ok ⟨.nil, .nil, rfl⟩
  | @cons b b' bs bs' hb hbs ih =>
    have htext : Signature.textFrom s.dropLast b.key = Signature.textFrom u.dropLast b'.key := by
      rw [hlast.textFrom_eq, hb.key]
    rw [stepBuckets, stepBuckets, htext, hb.live]
    refine (Agree.refl _).bind fun text _ hsame => ?_
    subst hsame
    refine (stepCandidates_agree hb hs text c terminate firstOnly _).bind fun own own' hown => ?_
    have hkept : own.kept = own'.kept := List.forall₂_eq_eq_eq ▸ hown.kept
    have hb' : Bucket.Recoded R { b with live := own.kept } { b' with live := own'.kept } :=
      ⟨hb.key, hb.start, hb.line, hkept⟩
    dsimp only
    rw [← hown.stopped]
    cases own.stopped with
    | true => exact .ok ⟨.cons hb' hbs, hown.ready, rfl⟩
    | false =>
      refine ih.bind fun later later' hlater => .ok ?_
      exact ⟨.cons hb' hlater.kept, List.rel_append hown.ready hlater.ready, hlater.stopped⟩

theorem finishCandidates_agree {b b' : Bucket σ} {s u : Signature} (hb : b.Recoded R b')
    (hs : s.Recoded R u) (hpq : R p q) (text : List Char) (xs : List (Candidate σ)) :
    Agree (List.Forall₂ (Ready.Recoded R)) (finishCandidates b s p text xs)
      (finishCandidates b' u q text xs) := by
  induction xs with
  | nil => exact .ok .nil
  | cons x xs ih =>
    exact ih.bind fun later later' hlater => (hb.finish hs (.some hpq) text x).bind
      fun ready ready' hready => .ok (List.rel_append hlater hready)

theorem finishBuckets_agree {s u : Signature} (hs : s.Recoded R u) (hpq : R p q)
    {bs bs' : List (Bucket σ)} (hbs : List.Forall₂ (Bucket.Recoded R) bs bs') :
    Agree (List.Forall₂ (Ready.Recoded R)) (finishBuckets s p bs) (finishBuckets u q bs') := by
  induction hbs with
  | nil => exact .ok .nil
  | @cons b b' bs bs' hb hbs ih =>
    rw [finishBuckets, finishBuckets, hs.textFrom_eq, hb.key, hb.live]
    refine (Agree.refl _).bind fun text _ htext => ?_
    subst htext
    exact (finishCandidates_agree hb hs hpq text _).bind fun own own' hown =>
      ih.bind fun later later' hlater => .ok (List.rel_append hown hlater)

end Tokenizer

/-! ## Tokenizers -/

/-- Unmatched runs that correspond. -/
structure UnmatchedRun.Recoded (R : Nat → Nat → Prop) (run run' : UnmatchedRun) : Prop where
  start : R run.start run'.start
  stop : R run.stop run'.stop
  line : run.line = run'.line
  text : run.text = run'.text

/-- **Two tokenizers that correspond**: they are set up alike but for their
encodings, and what they have in hand differs in offsets only. -/
structure Tokenizer.Recoded (R : Nat → Nat → Prop) (t u : Tokenizer σ) : Prop where
  tokens : t.tokens = u.tokens
  reserved : t.reserved = u.reserved
  mode : t.mode = u.mode
  policies : t.policies = u.policies
  lines : t.lines.Recoded R u.lines
  newlineRun : Option.Rel R t.newlineRun u.newlineRun
  signature : t.signature.Recoded R u.signature
  active : List.Forall₂ (Bucket.Recoded R) t.active u.active
  results : List.Forall₂ (Ready.Recoded R) t.results u.results
  unmatched : Option.Rel (UnmatchedRun.Recoded R) t.unmatched u.unmatched

namespace Tokenizer

/-- Answers that correspond, and the tokenizers behind them. -/
def Answered (R : Nat → Nat → Prop) (x y : Bool × Tokenizer σ) : Prop :=
  x.1 = y.1 ∧ x.2.Recoded R y.2

namespace Recoded

variable {t u : Tokenizer σ} {here here' width width' : Nat}

theorem beginning_eq (h : t.Recoded R u) (c : Char) : t.beginning c = u.beginning c := by
  rw [beginning, beginning, h.tokens, h.reserved]

theorem resultsComplete_eq (h : t.Recoded R u) : t.resultsComplete = u.resultsComplete := by
  rw [resultsComplete, resultsComplete, h.mode, isEmpty_congr h.active]

theorem step (h : t.Recoded R u) : t.step.Recoded R u.step := by
  refine { h with signature := ?_ }
  rw [Tokenizer.step, Tokenizer.step, isEmpty_congr h.active]
  cases u.active.isEmpty with
  | true => exact .nil
  | false => exact h.signature

theorem trackLines (h : t.Recoded R u) (hhere : R here here') (c : Char) :
    Agree (Recoded R) (t.trackLines here c) (u.trackLines here' c) := by
  have hrun := h.newlineRun
  rw [Tokenizer.trackLines, Tokenizer.trackLines]
  generalize t.newlineRun = x, u.newlineRun = y at hrun ⊢
  have hsome : x.isNone = y.isNone := by cases hrun <;> rfl
  rw [hsome]
  split
  · refine .ok { h with newlineRun := .some ?_ }
    cases hrun with
    | none => exact hhere
    | some h => exact h
  · split
    · exact .ok h
    · cases ht : t.lines.push? here with
      | none => exact .error_left _ _
      | some lines =>
        cases hu : u.lines.push? here' with
        | none => exact .error_right _ _
        | some lines' => exact .ok { h with lines := h.lines.push hhere ht hu, newlineRun := .none }

theorem report (h : t.Recoded R u) {start start' stop stop' : Nat} (hstart : R start start')
    (hstop : R stop stop') (line lineStart lineStart' : Nat) (text : List Char) :
    Agree (Recoded R) (t.report start stop line lineStart text)
      (u.report start' stop' line lineStart' text) :=
  (Lexeme.make_agree hstart hstop _ _ _ _ _ _).bind fun _ _ hl =>
    .ok { h with results := List.rel_append h.results (.cons ⟨hl, rfl⟩ .nil) }

theorem flushUnmatched (h : t.Recoded R u) :
    Agree (Answered R) t.flushUnmatched u.flushUnmatched := by
  rw [Tokenizer.flushUnmatched, Tokenizer.flushUnmatched]
  have hrun := h.unmatched
  generalize ht : t.unmatched = x, hu : u.unmatched = y at hrun
  cases hrun with
  | none => exact .ok ⟨rfl, h⟩
  | @some run run' hrun =>
    have hnone : Recoded R { t with unmatched := none } { u with unmatched := none } :=
      { h with unmatched := .none }
    dsimp only
    rw [hrun.line, hrun.text]
    exact (hnone.report hrun.start hrun.stop _ _ _ _).bind fun v w hvw => .ok ⟨rfl, hvw⟩

theorem extendUnmatched (h : t.Recoded R u) (hhere : R here here')
    (hwidth : R (here + width) (here' + width')) (c : Char) :
    (t.extendUnmatched here width c).Recoded R (u.extendUnmatched here' width' c) := by
  refine { h with unmatched := .some ?_ }
  have hrun := h.unmatched
  generalize t.unmatched = x, u.unmatched = y at hrun ⊢
  cases hrun with
  | none => exact ⟨hhere, hwidth, h.lines.current_eq, rfl⟩
  | some hrun => exact ⟨hrun.start, hwidth, hrun.line, congrArg (· ++ [c]) hrun.text⟩

theorem flushSignature (h : t.Recoded R u) (hR : KeepsOrder R) (length : Nat) (hpq : R p q) :
    Agree (Recoded R) (t.flushSignature length p) (u.flushSignature length q) := by
  rw [Tokenizer.flushSignature, Tokenizer.flushSignature, h.signature.slice_eq]
  refine (h.signature.offsetAt .none 0).bind fun start start' hstart => ?_
  refine (Agree.refl _).bind fun text _ htext => ?_
  subst htext
  have hline := h.lines.lookup_eq hR hstart
  dsimp only
  rw [hline]
  exact h.report hstart hpq _ _ _ _

theorem start (h : t.Recoded R u) (hhere : R here here')
    (hwidth : R (here + width) (here' + width')) (c : Char) :
    Agree (Answered R) (t.start here width c) (u.start here' width' c) := by
  rw [Tokenizer.start, Tokenizer.start, h.beginning_eq]
  dsimp only
  split
  · rw [isEmpty_congr h.active]
    split
    · exact .ok ⟨rfl, h.extendUnmatched hhere hwidth c⟩
    · exact .ok ⟨rfl, h⟩
  · refine h.flushUnmatched.bind ?_
    rintro ⟨flushed, v⟩ ⟨flushed', w⟩ ⟨hflushed, hvw⟩
    obtain rfl : flushed = flushed' := hflushed
    cases flushed with
    | true => exact .ok ⟨rfl, hvw⟩
    | false =>
      have hkey := congrArg (· - 1) hvw.signature.length_eq
      have hline := hvw.lines.current_eq
      exact .ok ⟨rfl, { hvw with
        active := List.rel_append hvw.active (.cons ⟨hkey, hhere, hline, rfl⟩ .nil) }⟩

theorem offered (h : t.Recoded R u) (hhere : R here here') (c : Char)
    {st st' : Stepped (Bucket σ)} (hst : st.Recoded (Bucket.Recoded R) R st') :
    (t.offered here c st).Recoded R (u.offered here' c st') :=
  { h with
    signature := List.rel_append h.signature (.cons ⟨rfl, hhere⟩ .nil)
    active := List.rel_filter (fun b b' hb => by simp only [hb.live]) hst.kept
    results := List.rel_append h.results hst.ready }

theorem conclude (h : t.Recoded R u) (hR : KeepsOrder R) (before : Nat) (hhere : R here here')
    (hwidth : R (here + width) (here' + width')) (c : Char) (stopped disallow : Bool) :
    Agree (Answered R) (t.conclude before here width c stopped disallow)
      (u.conclude before here' width' c stopped disallow) := by
  rw [Tokenizer.conclude, Tokenizer.conclude, isEmpty_congr h.active, isEmpty_congr h.results,
    h.resultsComplete_eq, h.mode]
  split
  · exact .ok ⟨rfl, h⟩
  split
  · exact .ok ⟨rfl, h⟩
  split
  · exact (h.flushSignature hR before hhere).bind fun v w hvw => .ok ⟨rfl, hvw⟩
  split
  · exact h.start hhere hwidth c
  · exact .ok ⟨rfl, h⟩

theorem consume (h : t.Recoded R u) (hR : KeepsOrder R) (hhere : R here here')
    (hwidth : R (here + width) (here' + width')) (c : Char) (disallow terminate : Bool) :
    Agree (Answered R) (t.consume here width c disallow terminate)
      (u.consume here' width' c disallow terminate) := by
  have hs : Signature.Recoded R (t.signature ++ [(c, here)]) (u.signature ++ [(c, here')]) :=
    List.rel_append h.signature (.cons ⟨rfl, hhere⟩ .nil)
  rw [consume_eq, consume_eq, h.mode, h.signature.length_eq]
  refine (stepBuckets_agree hs c terminate _ h.active).bind fun st st' hst => ?_
  rw [hst.stopped]
  exact (h.offered hhere c hst).conclude hR _ hhere hwidth c _ _

/-- **Treating a character** comes to the same. -/
theorem feedChar (h : t.Recoded R u) (hR : KeepsOrder R) (hhere : R here here')
    (hwidth : R (here + width) (here' + width')) (c : Char) :
    Agree (Answered R) (t.feedChar here width c) (u.feedChar here' width' c) := by
  rw [Tokenizer.feedChar, Tokenizer.feedChar, h.policies, isEmpty_congr h.active]
  dsimp only
  split
  · exact h.flushUnmatched
  split
  · refine h.flushUnmatched.bind ?_
    rintro ⟨flushed, v⟩ ⟨flushed', w⟩ ⟨hflushed, hvw⟩
    obtain rfl : flushed = flushed' := hflushed
    cases flushed with
    | true => exact .ok ⟨rfl, hvw⟩
    | false =>
      dsimp only
      rw [hvw.lines.current_eq]
      exact (hvw.report hhere hwidth _ _ _ _).bind fun v w hvw => .ok ⟨rfl, hvw⟩
  split
  · exact .ok ⟨rfl, h⟩
  · exact h.consume hR hhere hwidth c _ _

/-- **The end of the stream** comes to the same. -/
theorem finish (h : t.Recoded R u) (hR : KeepsOrder R) (hposition : R t.position u.position) :
    Agree (Answered R) t.finish u.finish := by
  rw [Tokenizer.finish, Tokenizer.finish]
  refine (finishBuckets_agree h.signature hposition h.active).bind fun ready ready' hready => ?_
  have hresults := List.rel_append h.results hready
  have hsettled : Recoded R { t with active := [], results := t.results ++ ready }
      { u with active := [], results := u.results ++ ready' } :=
    { h with active := .nil, results := hresults }
  -- whether the signature is reported or not, the unmatched run comes last
  have hlast (v w : Tokenizer σ) (hvw : Recoded R v w) : Agree (Answered R)
      (v.flushUnmatched >>= fun x => .ok (!x.2.results.isEmpty, { x.2 with signature := [] }))
      (w.flushUnmatched >>= fun x => .ok (!x.2.results.isEmpty, { x.2 with signature := [] })) :=
    hvw.flushUnmatched.bind fun x y ⟨_, hxy⟩ =>
      .ok ⟨by rw [isEmpty_congr hxy.results], { hxy with signature := .nil }⟩
  dsimp only
  rw [isEmpty_congr h.active, isEmpty_congr hresults, isEmpty_congr h.signature,
    h.signature.length_eq]
  split
  · exact (hsettled.flushSignature hR _ hposition).bind hlast
  · exact (Agree.ok hsettled).bind hlast

/-- **Starting afresh** at offsets that correspond. -/
theorem rewind (h : t.Recoded R u) (hR : KeepsOrder R) (hpq : R p q) :
    (t.rewind p).Recoded R (u.rewind q) := by
  refine { h with
    lines := h.lines.truncateAfter hR hpq
    newlineRun := ?_
    signature := .nil
    active := .nil
    results := .nil
    unmatched := .none }
  show Option.Rel R (t.newlineRun.filter (· < p)) (u.newlineRun.filter (· < q))
  have hrun := h.newlineRun
  generalize t.newlineRun = x, u.newlineRun = y at hrun ⊢
  cases hrun with
  | none => exact .none
  | some hrun =>
    rw [Option.filter_some, Option.filter_some]
    simp only [hR.lt_iff hrun hpq]
    split
    · exact .some hrun
    · exact .none

end Recoded

end Tokenizer

end Lexing
