import Lexing.Proofs.Scanner.Characters
import Lexing.Proofs.Tokenizer.Sequential

/-!
# The stages of a search

Without interleaving a search passes through three stages, and each can be told
by the characters it has read: a gap of characters that were dropped, then
perhaps a run of unmatched characters, or else one bucket of candidates with
the signature of what has been read since (`Stage`). In every stage the next
character either leads to a stage again or makes lexemes ready, and every
lexeme that waits is a piece of what has been read: it starts behind the gap,
ends between two characters, and its text is what its characters show
(`Stage.onward`, `Stage.ready`, `Stage.piece_of_finished`).
-/

namespace Lexing

variable {σ : Type}

namespace PolicyTable

variable (P : PolicyTable)

theorem get_toAscii (c : Char) : P.get (toAscii c) = P.get c := by
  have hindex : index (toAscii c) = index c := by
    unfold index toAscii
    split
    next h => rfl
    next h => rfl
  simp only [get, hindex]

/-- A character that may stand between lexemes. -/
def Skips (c : Char) : Prop := (P.get c).trim = true ∨ (P.get c).ignore = true

/-- What tokens see of a text: the images of the characters that are not
ignored. -/
def visible (text : List Char) : List Char :=
  (text.filter fun c => !(P.get c).ignore).map toAscii

@[simp] theorem visible_nil : P.visible [] = [] := rfl

theorem visible_append (xs ys : List Char) :
    P.visible (xs ++ ys) = P.visible xs ++ P.visible ys := by
  simp [visible]

theorem visible_cons_of_ignore {c : Char} (h : (P.get c).ignore = true) (text : List Char) :
    P.visible (c :: text) = P.visible text := by
  simp [visible, h]

theorem visible_cons_of_pass {c : Char} (h : (P.get c).ignore = false) (text : List Char) :
    P.visible (c :: text) = toAscii c :: P.visible text := by
  simp [visible, h]

theorem visible_of_ignored {text : List Char} (h : ∀ c ∈ text, (P.get c).ignore = true) :
    P.visible text = [] := by
  simpa [visible] using h

end PolicyTable

/-! ## What is left of a text that has been read -/

/-- The signature of a text that is read from an offset on. -/
def trace (e : Encoding) (P : PolicyTable) (o : Nat) : List Char → Signature
  | [] => []
  | c :: text =>
    if (P.get c).ignore then trace e P (o + e.unitLen c) text
    else (toAscii c, o) :: trace e P (o + e.unitLen c) text

section Trace

variable {e : Encoding} {P : PolicyTable} {o : Nat}

theorem trace_cons_of_ignore {c : Char} (h : (P.get c).ignore = true) (text : List Char) :
    trace e P o (c :: text) = trace e P (o + e.unitLen c) text := by
  rw [trace, if_pos h]

theorem trace_cons_of_pass {c : Char} (h : (P.get c).ignore = false) (text : List Char) :
    trace e P o (c :: text) = (toAscii c, o) :: trace e P (o + e.unitLen c) text := by
  rw [trace, if_neg (by rw [h]; exact Bool.false_ne_true)]

theorem trace_append (xs ys : List Char) :
    trace e P o (xs ++ ys) = trace e P o xs ++ trace e P (o + e.size xs) ys := by
  induction xs generalizing o with
  | nil => rfl
  | cons c xs ih =>
    rw [List.cons_append, Encoding.size_cons, ← Nat.add_assoc]
    cases h : (P.get c).ignore with
    | true => rw [trace_cons_of_ignore h, trace_cons_of_ignore h, ih]
    | false => rw [trace_cons_of_pass h, trace_cons_of_pass h, ih, List.cons_append]

theorem text_trace (e : Encoding) (P : PolicyTable) (o : Nat) (text : List Char) :
    (trace e P o text).text = P.visible text := by
  induction text generalizing o with
  | nil => rfl
  | cons c text ih =>
    cases h : (P.get c).ignore with
    | true => rw [trace_cons_of_ignore h, P.visible_cons_of_ignore h, ih]
    | false =>
      rw [trace_cons_of_pass h, P.visible_cons_of_pass h, ← ih (o + e.unitLen c)]
      rfl

/-- A place in a signature is a place between two characters of the text: the
characters before it show what the signature holds up to there, and it stands
where they end. -/
theorem exists_cut (e : Encoding) (P : PolicyTable) (o : Nat) (text : List Char) {n : Nat}
    (hn : n ≤ (trace e P o text).length) :
    ∃ front back, text = front ++ back ∧
      P.visible front = (trace e P o text).text.take n ∧
      (trace e P o text).boundary (o + e.size text) n = o + e.size front := by
  induction text generalizing o n with
  | nil =>
    obtain rfl : n = 0 := Nat.le_zero.1 hn
    exact ⟨[], [], rfl, rfl, rfl⟩
  | cons c text ih =>
    cases h : (P.get c).ignore with
    | true =>
      rw [trace_cons_of_ignore h] at hn ⊢
      obtain ⟨front, back, rfl, hfront, hstop⟩ := ih (o + e.unitLen c) hn
      refine ⟨c :: front, back, rfl, ?_, ?_⟩
      · rw [P.visible_cons_of_ignore h, hfront]
      · rw [Encoding.size_cons, Encoding.size_cons, ← Nat.add_assoc, hstop, Nat.add_assoc]
    | false =>
      rw [trace_cons_of_pass h] at hn ⊢
      cases n with
      | zero => exact ⟨[], c :: text, rfl, rfl, rfl⟩
      | succ n =>
        obtain ⟨front, back, rfl, hfront, hstop⟩ :=
          ih (o + e.unitLen c) (Nat.le_of_succ_le_succ hn)
        refine ⟨c :: front, back, rfl, ?_, ?_⟩
        · rw [P.visible_cons_of_pass h, hfront]
          rfl
        · rw [Encoding.size_cons, Encoding.size_cons, ← Nat.add_assoc, ← Nat.add_assoc, ← hstop]
          rfl

end Trace

/-! ## Pieces of a text -/

/-- What a lexeme shows of the characters it spans. A character that is
reported because no token may have it shows itself. -/
def PolicyTable.spanText (P : PolicyTable) : List Char → List Char
  | [c] => if (P.get c).disallow then [toAscii c] else P.visible [c]
  | text => P.visible text

/-- From a character on that is not ignored, a lexeme shows what tokens see. -/
theorem PolicyTable.spanText_of_pass {P : PolicyTable} {c : Char} (h : (P.get c).ignore = false)
    (mid : List Char) : P.spanText (c :: mid) = P.visible (c :: mid) := by
  cases mid with
  | nil =>
    rw [spanText, P.visible_cons_of_pass h]
    split <;> rfl
  | cons d mid => rfl

/-- **A lexeme is a piece of a text** that starts at an offset: behind a gap
it spans some characters, and shows what they show. -/
def PieceOf (e : Encoding) (P : PolicyTable) (o : Nat) (text : List Char) (l : Lexeme) : Prop :=
  ∃ gap mid rest, text = gap ++ mid ++ rest ∧ mid ≠ [] ∧ (∀ c ∈ gap, P.Skips c) ∧
    l.start = o + e.size gap ∧ l.stop = o + e.size (gap ++ mid) ∧ l.text = P.spanText mid

section Pieces

variable {e : Encoding} {P : PolicyTable} {o : Nat} {gap mid text : List Char} {c : Char}

/-- A piece of a text is one of a longer text. -/
theorem PieceOf.append {l : Lexeme} (h : PieceOf e P o text l) (more : List Char) :
    PieceOf e P o (text ++ more) l := by
  obtain ⟨gap, mid, rest, rfl, h⟩ := h
  exact ⟨gap, mid, rest ++ more, by simp, h⟩

/-- What tokens see from a character on, as far as a place between two
characters. -/
theorem pieceOf_visible {l : Lexeme} (rest : List Char) (hgap : ∀ d ∈ gap, P.Skips d)
    (hc : (P.get c).ignore = false) (hstart : l.start = o + e.size gap)
    (hstop : l.stop = o + e.size (gap ++ c :: mid)) (htext : l.text = P.visible (c :: mid)) :
    PieceOf e P o (gap ++ c :: mid ++ rest) l :=
  ⟨gap, c :: mid, rest, rfl, List.cons_ne_nil _ _, hgap, hstart, hstop,
    htext.trans (PolicyTable.spanText_of_pass hc mid).symm⟩

/-- A candidate of a bucket that has seen a text from a character on yields a
piece of it. -/
theorem pieceOf_of_mem_yield {b : Bucket σ} {s : Signature} {x : Candidate σ} {here : Nat}
    (hgap : ∀ d ∈ gap, P.Skips d) (hc : (P.get c).ignore = false) (hkey : b.key = 0)
    (hstart : b.start = o + e.size gap) (hs : s = trace e P (o + e.size gap) (c :: mid))
    (hhere : here = o + e.size (gap ++ c :: mid)) (hfits : b.Fits s) (hx : x ∈ b.live) {r : Ready}
    (hr : r ∈ b.yield s here x) : PieceOf e P o (gap ++ c :: mid) r.lexeme := by
  obtain ⟨n, st, hsettled, rfl⟩ := Bucket.mem_yield.1 hr
  obtain ⟨hn, hle, -⟩ := hfits.settled hx hsettled
  rw [hkey, Nat.zero_add, hs] at hle
  obtain ⟨front, back, hsplit, hfront, hstop⟩ := exists_cut e P (o + e.size gap) (c :: mid) hle
  have hne : front ≠ [] := by
    rintro rfl
    have hlength := congrArg List.length hfront
    rw [PolicyTable.visible_nil, List.length_take, Signature.length_text] at hlength
    simp only [List.length_nil] at hlength
    omega
  obtain ⟨d, front, rfl⟩ := List.exists_cons_of_ne_nil hne
  obtain ⟨rfl, rfl⟩ := List.cons.inj hsplit
  have hpiece : PieceOf e P o (gap ++ c :: front ++ back)
      (b.lexeme s here x n st) := by
    refine pieceOf_visible back hgap hc hstart ?_ ?_
    · show s.boundary here (b.key + n) = _
      rw [hkey, Nat.zero_add, hs, hhere, Encoding.size_append, ← Nat.add_assoc, hstop,
        Encoding.size_append, Nat.add_assoc]
    · show (b.text s).take n = _
      rw [hfront, Bucket.text, hkey, List.drop_zero, hs]
  simpa using hpiece

/-- The whole signature of a bucket is a piece of the text it has seen. -/
theorem pieceOf_wasted {t : Tokenizer σ} {b : Bucket σ} {here : Nat}
    (hgap : ∀ d ∈ gap, P.Skips d) (hc : (P.get c).ignore = false) (hkey : b.key = 0)
    (hstart : b.start = o + e.size gap)
    (hs : t.signature = trace e P (o + e.size gap) (c :: mid))
    (hhere : here = o + e.size (gap ++ c :: mid)) (hfits : b.Fits t.signature) :
    PieceOf e P o (gap ++ c :: mid) (t.wasted t.signature.length here).lexeme := by
  have hfirst : t.signature.boundary here 0 = o + e.size gap := by
    rw [← hstart, ← hfits.start_eq here, hkey]
  have htext : t.signature.text.take t.signature.length = P.visible (c :: mid) := by
    rw [← Signature.length_text, List.take_length, hs, text_trace]
  have hpiece := pieceOf_visible (l := (t.wasted t.signature.length here).lexeme) [] hgap hc
    hfirst hhere htext
  simpa using hpiece

end Pieces

/-! ## Stages -/

/-- **The stage of a search** that has read a text from an offset on. -/
inductive Stage (e : Encoding) (P : PolicyTable) (o : Nat) (t : Tokenizer σ) : List Char → Prop
  /-- nothing but a gap has been read -/
  | idle (gap : List Char) (hgap : ∀ c ∈ gap, P.Skips c) (hactive : t.active = [])
    (hresults : t.results = []) (hrun : t.unmatched = none) : Stage e P o t gap
  /-- behind the gap, characters have joined an unmatched run -/
  | run (gap : List Char) (c : Char) (mid tail : List Char) (hgap : ∀ d ∈ gap, P.Skips d)
    (hc : (P.get c).ignore = false) (htail : ∀ d ∈ tail, (P.get d).ignore = true)
    (hactive : t.active = []) (hresults : t.results = []) (run : UnmatchedRun)
    (hrun : t.unmatched = some run) (hstart : run.start = o + e.size gap)
    (hstop : run.stop = o + e.size (gap ++ c :: mid))
    (htext : run.text = P.visible (c :: mid)) : Stage e P o t (gap ++ c :: mid ++ tail)
  /-- behind the gap, candidates have begun -/
  | live (gap : List Char) (c : Char) (mid : List Char) (hgap : ∀ d ∈ gap, P.Skips d)
    (hc : (P.get c).ignore = false) (b : Bucket σ) (hactive : t.active = [b]) (hkey : b.key = 0)
    (hstart : b.start = o + e.size gap) (hrun : t.unmatched = none)
    (hsignature : t.signature = trace e P (o + e.size gap) (c :: mid))
    (hresults : ∀ r ∈ t.results, PieceOf e P o (gap ++ c :: mid) r.lexeme) :
    Stage e P o t (gap ++ c :: mid)

open Tokenizer

namespace Stage

variable {e : Encoding} {P : PolicyTable} {o : Nat} {t u : Tokenizer σ} {read : List Char}

/-- A stage is told by what is active, what waits and what is unmatched, and
by the signature while something is active. -/
theorem congr (h : Stage e P o t read) (hactive : u.active = t.active)
    (hresults : u.results = t.results) (hrun : u.unmatched = t.unmatched)
    (hsignature : t.active ≠ [] → u.signature = t.signature) : Stage e P o u read := by
  cases h with
  | idle _ hgap ha hr hn =>
    exact .idle _ hgap (hactive.trans ha) (hresults.trans hr) (hrun.trans hn)
  | run gap c mid tail hgap hc htail ha hr run hn hstart hstop htext =>
    exact .run gap c mid tail hgap hc htail (hactive.trans ha) (hresults.trans hr) run
      (hrun.trans hn) hstart hstop htext
  | live gap c mid hgap hc b ha hkey hstart hn hs hr =>
    exact .live gap c mid hgap hc b (hactive.trans ha) hkey hstart (hrun.trans hn)
      ((hsignature (by simp [ha])).trans hs) (by rwa [hresults])

/-- A search starts with an empty gap. -/
theorem of_fresh (h : t.Fresh) : Stage e P o t [] :=
  .idle [] (by simp) h.active h.results h.unmatched

theorem tracked (h : Stage e P o t read) (lines : LineTable) (run : Option Nat) :
    Stage e P o (t.tracked lines run) read :=
  h.congr rfl rfl rfl (signature_tracked_of_live lines run)

theorem passedOver (h : Stage e P o t read) (n : Nat) : Stage e P o (t.passedOver n) read :=
  h.congr rfl rfl rfl (signature_passedOver_of_live n)

variable {here : Nat} {c : Char}

/-- The lexeme of an unmatched run is a piece of what has been read. -/
theorem piece_of_run (h : Stage e P o t read) {run : UnmatchedRun} (hrun : t.unmatched = some run) :
    PieceOf e P o read run.ready.lexeme := by
  cases h with
  | idle _ _ _ _ hnone => exact nomatch hnone.symm.trans hrun
  | live _ _ _ _ _ _ _ _ _ hnone => exact nomatch hnone.symm.trans hrun
  | run gap c mid tail hgap hc _ _ _ run' hrun' hstart hstop htext =>
    obtain rfl := Option.some.inj (hrun'.symm.trans hrun)
    exact pieceOf_visible tail hgap hc hstart hstop htext

/-- Without candidates, a search that goes on is in a stage again. -/
theorem onward_idle (h : Stage e P o t read) (hactive : t.active = []) (hpolicies : t.policies = P)
    (hhere : here = o + e.size read)
    (htreated : TreatedIdle t here (e.unitLen c) (toAscii c) u false) :
    Stage e P o u (read ++ [c]) := by
  have hskip {gap : List Char} (hgap : ∀ d ∈ gap, P.Skips d) (hc : P.Skips c) :
      ∀ d ∈ gap ++ [c], P.Skips d :=
    List.forall_mem_append.2 ⟨hgap, List.forall_mem_singleton.2 hc⟩
  -- a dropped character joins the gap, or the tail of a run; any other one
  -- starts or extends a run, or begins a bucket
  cases h with
  | live _ _ _ _ _ b hone => simp [hone] at hactive
  | idle _ hgap _ hresults hnone =>
    cases htreated with
    | trimmed htrim _ hu =>
      rw [hpolicies, P.get_toAscii] at htrim
      exact .idle _ (hskip hgap (.inl htrim)) (hu ▸ hactive) (hu ▸ hresults) (hu ▸ hnone)
    | ignored _ _ hignore hu =>
      rw [hpolicies, P.get_toAscii] at hignore
      exact .idle _ (hskip hgap (.inr hignore)) (hu ▸ hactive) (hu ▸ hresults) (hu ▸ hnone)
    | unmatched _ _ hignore _ ha hr hrun =>
      rw [hpolicies, P.get_toAscii] at hignore
      rw [extendedRun, hnone] at hrun
      have hstage := Stage.run (t := u) (e := e) (P := P) (o := o) read c [] [] hgap hignore
        (by simp) ha hr _ hrun hhere
        (by rw [Encoding.size_append, ← Nat.add_assoc, ← hhere, Encoding.size_cons]; rfl)
        (by rw [P.visible_cons_of_pass hignore]; rfl)
      simpa using hstage
    | begun _ _ hignore _ _ hr ha hs hn =>
      rw [hpolicies, P.get_toAscii] at hignore
      refine .live read c [] hgap hignore _ ha rfl hhere hn ?_ ?_
      · rw [hs, trace_cons_of_pass hignore, hhere]
        rfl
      · rw [hr]
        exact fun r hr => nomatch hr
  | run gap d mid tail hgap hd htail _ hresults run hrun hstart hstop htext =>
    cases htreated with
    | trimmed _ hnone => exact nomatch hnone.symm.trans hrun
    | begun _ _ _ _ hnone => exact nomatch hnone.symm.trans hrun
    | ignored _ _ hignore hu =>
      rw [hpolicies, P.get_toAscii] at hignore
      rw [List.append_assoc]
      exact .run gap d mid (tail ++ [c]) hgap hd
        (List.forall_mem_append.2 ⟨htail, List.forall_mem_singleton.2 hignore⟩)
        (hu ▸ hactive) (hu ▸ hresults) run (hu ▸ hrun) hstart hstop htext
    | unmatched _ _ hignore _ ha hr hrun' =>
      rw [hpolicies, P.get_toAscii] at hignore
      rw [extendedRun, hrun] at hrun'
      -- the ignored characters of the tail now lie inside the run
      have hsplit : gap ++ d :: mid ++ tail ++ [c] = gap ++ d :: (mid ++ tail ++ [c]) ++ [] := by
        simp
      rw [hsplit]
      refine .run gap d (mid ++ tail ++ [c]) [] hgap hd (by simp) ha hr _ hrun' hstart ?_ ?_
      · show here + e.unitLen c = _
        rw [hhere]
        simp only [Encoding.size_append, Encoding.size_cons, Encoding.size_nil]
        omega
      · show run.text ++ [toAscii c] = _
        rw [htext, ← List.cons_append, ← List.cons_append, P.visible_append, P.visible_append,
          P.visible_of_ignored htail, P.visible_cons_of_pass hignore, List.append_nil]
        rfl

/-- Without candidates, what is ready is a piece of what has been read. -/
theorem ready_idle (h : Stage e P o t read) (hactive : t.active = []) (hpolicies : t.policies = P)
    (hhere : here = o + e.size read)
    (htreated : TreatedIdle t here (e.unitLen c) (toAscii c) u true) :
    ∀ r ∈ u.results, PieceOf e P o (read ++ [c]) r.lexeme := by
  cases htreated with
  | interrupted run hrun _ hresults =>
    rw [hresults, List.forall_mem_singleton]
    exact (h.piece_of_run hrun).append [c]
  | disallowed _ hdisallow hnone hresults =>
    rw [hpolicies, P.get_toAscii] at hdisallow
    rw [hresults, List.forall_mem_singleton]
    cases h with
    | live _ _ _ _ _ b hone => simp [hone] at hactive
    | run _ _ _ _ _ _ _ _ _ _ hrun => exact nomatch hnone.symm.trans hrun
    | idle _ hgap =>
      refine ⟨read, [c], [], by simp, List.cons_ne_nil _ _, hgap, hhere, ?_, ?_⟩
      · show here + e.unitLen c = _
        rw [hhere, Encoding.add_size_snoc]
      · rw [PolicyTable.spanText, if_pos hdisallow]
        rfl

/-- With candidates, a search that goes on is in a stage again. -/
theorem onward_live (h : Stage e P o t read) {b : Bucket σ} (hactive : t.active = [b])
    (hfits : b.Fits t.signature) (hpolicies : t.policies = P) (hhere : here = o + e.size read)
    (htreated : TreatedLive t b here (toAscii c) u false) : Stage e P o u (read ++ [c]) := by
  cases h with
  | idle _ _ hnone => simp [hactive] at hnone
  | run _ _ _ _ _ _ _ hnone => simp [hactive] at hnone
  -- the bucket spans all characters since the gap, whether ignored or not
  | live gap d mid hgap hd b' hone hkey hstart hrun hsignature hresults =>
    obtain rfl : b' = b := by simpa [hone] using hactive
    have hlonger : ∀ r ∈ t.results, PieceOf e P o (gap ++ d :: (mid ++ [c])) r.lexeme :=
      fun r hr => by simpa using (hresults r hr).append [c]
    have hsplit : gap ++ d :: mid ++ [c] = gap ++ d :: (mid ++ [c]) := by simp
    have htrace : trace e P (o + e.size gap) (d :: (mid ++ [c]))
        = t.signature ++ trace e P here [c] := by
      rw [← List.cons_append, trace_append, hsignature, hhere, Encoding.size_append, Nat.add_assoc]
    rw [hsplit]
    cases htreated with
    | ignored hignore hu =>
      rw [hpolicies, P.get_toAscii] at hignore
      subst hu
      refine .live gap d _ hgap hd b' hone hkey hstart hrun ?_ hlonger
      rw [htrace, trace_cons_of_ignore hignore, trace, List.append_nil]
    | onward hignore st hst hwhole hkept hwait hactive' hresults' hsignature' hunmatched =>
      rw [hpolicies, P.get_toAscii] at hignore
      refine .live gap d _ hgap hd _ hactive' hkey hstart (hunmatched.trans hrun) ?_ fun r hr => ?_
      · rw [htrace, trace_cons_of_pass hignore, hsignature']
        rfl
      · rw [hresults'] at hr
        obtain hr | hr := List.mem_append.1 hr
        · exact hlonger r hr
        · obtain ⟨x, hx, -, hr⟩ := hst.ready_from hr
          have hpiece := pieceOf_of_mem_yield hgap hd hkey hstart hsignature hhere hfits hx hr
          simpa using hpiece.append [c]

/-- With candidates, what is ready is a piece of what has been read. -/
theorem ready_live (h : Stage e P o t read) {b : Bucket σ} (hactive : t.active = [b])
    (hfits : b.Fits t.signature) (hhere : here = o + e.size read)
    (htreated : TreatedLive t b here (toAscii c) u true) :
    ∀ r ∈ u.results, PieceOf e P o (read ++ [c]) r.lexeme := by
  cases h with
  | idle _ _ hnone => simp [hactive] at hnone
  | run _ _ _ _ _ _ _ hnone => simp [hactive] at hnone
  | live gap d mid hgap hd b' hone hkey hstart hrun hsignature hresults =>
    obtain rfl : b' = b := by simpa [hone] using hactive
    intro r hr
    cases htreated with
    | ready _ st hst _ hresults' =>
      rw [hresults'] at hr
      obtain hr | hr := List.mem_append.1 hr
      · exact (hresults r hr).append [c]
      · obtain ⟨x, hx, -, hr⟩ := hst.ready_from hr
        exact (pieceOf_of_mem_yield hgap hd hkey hstart hsignature hhere hfits hx hr).append [c]
    | wasted _ _ _ hresults' =>
      rw [hresults', List.mem_singleton] at hr
      rw [hr]
      exact (pieceOf_wasted hgap hd hkey hstart hsignature hhere hfits).append [c]

theorem active_cases (h : Stage e P o t read) :
    t.active = [] ∧ t.results = [] ∨ ∃ b, t.active = [b] := by
  cases h with
  | idle _ _ hactive hresults => exact .inl ⟨hactive, hresults⟩
  | run _ _ _ _ _ _ _ hactive hresults => exact .inl ⟨hactive, hresults⟩
  | live _ _ _ _ _ b hactive => exact .inr ⟨b, hactive⟩

/-- **A search that goes on is in a stage again**, with one more character
read. -/
theorem onward (h : Stage e P o t read) {floor : Nat} (hb : t.Between floor here)
    (hsignature : t.active = [] → t.signature = []) (hpolicies : t.policies = P)
    (hmode : t.mode.interleaved = false) (hhere : here = o + e.size read)
    (htreated : Treated t here (e.unitLen c) (toAscii c) false u) :
    Stage e P o u (read ++ [c]) := by
  obtain ⟨hactive, hresults⟩ | ⟨b, hactive⟩ := h.active_cases
  · exact h.onward_idle hactive hpolicies hhere
      (htreated.idle hactive hresults (hsignature hactive))
  · have hfits := hb.fits b (by simp [hactive])
    exact h.onward_live hactive hfits hpolicies hhere (htreated.live hactive hfits hmode)

/-- **What is ready is a piece of what has been read.** -/
theorem ready (h : Stage e P o t read) {floor : Nat} (hb : t.Between floor here)
    (hsignature : t.active = [] → t.signature = []) (hpolicies : t.policies = P)
    (hmode : t.mode.interleaved = false) (hhere : here = o + e.size read)
    (htreated : Treated t here (e.unitLen c) (toAscii c) true u) :
    ∀ r ∈ u.results, PieceOf e P o (read ++ [c]) r.lexeme := by
  obtain ⟨hactive, hresults⟩ | ⟨b, hactive⟩ := h.active_cases
  · exact h.ready_idle hactive hpolicies hhere
      (htreated.idle hactive hresults (hsignature hactive))
  · have hfits := hb.fits b (by simp [hactive])
    exact h.ready_live hactive hfits hhere (htreated.live hactive hfits hmode)

/-- At the end of the text, what waits is a piece of it. -/
theorem piece_of_finished (h : Stage e P o t read) (hfits : ∀ b ∈ t.active, b.Fits t.signature)
    (hposition : t.position = o + e.size read) {r : Ready} (hr : r ∈ t.finished.results) :
    PieceOf e P o read r.lexeme := by
  obtain hr | ⟨b, hb, x, hx, hr⟩ | ⟨hne, rfl⟩ | ⟨run, hrun, rfl⟩ := mem_finished hr
  · cases h with
    | idle _ _ _ hnone => simp [hnone] at hr
    | run _ _ _ _ _ _ _ _ hnone => simp [hnone] at hr
    | live _ _ _ _ _ _ _ _ _ _ _ hresults => exact hresults r hr
  · cases h with
    | idle _ _ hnone => simp [hnone] at hb
    | run _ _ _ _ _ _ _ hnone => simp [hnone] at hb
    | live gap d mid hgap hd b' hone hkey hstart _ hsignature =>
      obtain rfl : b = b' := by simpa [hone] using hb
      exact pieceOf_of_mem_yield hgap hd hkey hstart hsignature hposition (hfits b hb) hx hr
  · cases h with
    | idle _ _ hnone => exact absurd hnone hne
    | run _ _ _ _ _ _ _ hnone => exact absurd hnone hne
    | live gap d mid hgap hd b hone hkey hstart _ hsignature =>
      exact pieceOf_wasted hgap hd hkey hstart hsignature hposition (hfits b (by simp [hone]))
  · exact h.piece_of_run hrun

/-- If nothing waits at the end of the text, all of it is a gap. -/
theorem skips_of_finished (h : Stage e P o t read) (hnone : t.finished.results = []) :
    ∀ c ∈ read, P.Skips c := by
  rw [Tokenizer.finished, List.append_eq_nil_iff, unmatched_covered] at hnone
  cases h with
  | idle _ hgap => exact hgap
  | run _ _ _ _ _ _ _ _ _ run hrun => simp [hrun] at hnone
  | live _ _ _ _ _ b hone =>
    have hcovered := hnone.1
    rw [covered] at hcovered
    split at hcovered
    · simp [reporting] at hcovered
    next hsettled => simp [hone, hcovered] at hsettled

end Stage

end Lexing
