import Lexing.Proofs.Scanner.Scan
import Lexing.Proofs.Tokenizer.Heard
import Lexing.Proofs.Tokenizer.Sequential

/-!
# Searching through any units

A stream of units need not be the encoding of a text: a glyph may be cut off,
and a unit that continues a glyph may stand alone. A search without
interleaving still passes through the stages of a gap, an unmatched run and one
bucket of candidates, which are told here by the units that have been read
(`UnitStage`). Every lexeme that waits shows what the units of its span bring
to the tokens. It ends behind the last of them, unless it is an unrecognized
one: that ends where the glyph of its last unit should end, and it does not
matter whether the other units of the glyph are there (`Shows`).
-/

namespace Lexing

variable {σ : Type}

/-! ## Lexemes over units -/

/-- **What a lexeme shows of the units it spans**, the first of which stands at
an offset. -/
inductive Shows (e : Encoding) (P : PolicyTable) (o : Nat) (l : Lexeme) :
    List UInt32 → Signature → Prop
  /-- it ends behind the last of them -/
  | seen (units : List UInt32) (hstop : l.stop = o + units.length)
    (htext : l.text = (heard e P o units).text) : Shows e P o l units (heard e P o units)
  /-- no token made it, and it ends where the glyph of the last of them should
  end -/
  | promised (front : List UInt32) (u : UInt32) (hlead : e.glyphUnits u ≠ 0)
    (htoken : l.token = none) (hstop : l.stop = o + front.length + e.glyphUnits u)
    (htext : l.text = (heard e P o front).text ++ [leadToChar u]) :
    Shows e P o l (front ++ [u]) (heard e P o front ++ [(leadToChar u, o + front.length)])

/-- **A lexeme is taken from units** that start at an offset: behind units that
may stand between lexemes it spans some others, and shows what they bring. -/
def TakenFrom (e : Encoding) (P : PolicyTable) (o : Nat) (units : List UInt32) (l : Lexeme) :
    Prop :=
  ∃ gap mid rest s, units = gap ++ mid ++ rest ∧ (∀ u ∈ gap, Passes e P u) ∧
    l.start = o + gap.length ∧ Shows e P (o + gap.length) l mid s

section TakenFrom

variable {e : Encoding} {P : PolicyTable} {o here : Nat} {gap mid units : List UInt32}
  {b : Bucket σ} {s : Signature}

/-- A lexeme that is taken from some units is taken from more of them. -/
theorem TakenFrom.append {l : Lexeme} (h : TakenFrom e P o units l) (more : List UInt32) :
    TakenFrom e P o (units ++ more) l := by
  obtain ⟨gap, mid, rest, s, rfl, h⟩ := h
  exact ⟨gap, mid, rest ++ more, s, by simp, h⟩

/-- A candidate of a bucket that has heard some units yields a lexeme that is
taken from them. -/
theorem takenFrom_of_mem_yield {x : Candidate σ} (hgap : ∀ u ∈ gap, Passes e P u) (hkey : b.key = 0)
    (hstart : b.start = o + gap.length) (hs : s = heard e P (o + gap.length) mid)
    (hhere : here = o + (gap ++ mid).length) (hfits : b.Fits s) (hx : x ∈ b.live) {r : Ready}
    (hr : r ∈ b.yield s here x) : TakenFrom e P o (gap ++ mid) r.lexeme := by
  obtain ⟨n, st, hsettled, rfl⟩ := Bucket.mem_yield.1 hr
  obtain ⟨-, hle, -⟩ := hfits.settled hx hsettled
  rw [hkey, Nat.zero_add, hs] at hle
  obtain ⟨front, back, rfl, hfront, hstop⟩ := exists_cut_heard e P (o + gap.length) mid hle
  refine ⟨gap, front, back, _, by simp, hgap, hstart, .seen front ?_ ?_⟩
  · show s.boundary here (b.key + n) = _
    rw [hkey, Nat.zero_add, hs, hhere, List.length_append, ← Nat.add_assoc, hstop]
  · show (b.text s).take n = _
    rw [hfront, Bucket.text, hkey, List.drop_zero, hs, Signature.text, Signature.text,
      List.map_take]

/-- So is the lexeme of a whole signature. -/
theorem takenFrom_wasted {t : Tokenizer σ} (hgap : ∀ u ∈ gap, Passes e P u) (hkey : b.key = 0)
    (hstart : b.start = o + gap.length) (hs : t.signature = heard e P (o + gap.length) mid)
    (hhere : here = o + (gap ++ mid).length) (hfits : b.Fits t.signature) :
    TakenFrom e P o (gap ++ mid) (t.wasted t.signature.length here).lexeme := by
  have hfirst : t.signature.boundary here 0 = o + gap.length := by
    rw [← hstart, ← hfits.start_eq here, hkey]
  refine ⟨gap, mid, [], _, by simp, hgap, hfirst, .seen mid ?_ ?_⟩
  · show here = _
    rw [hhere, List.length_append, Nat.add_assoc]
  · show t.signature.text.take t.signature.length = _
    rw [← Signature.length_text, List.take_length, hs]

end TakenFrom

/-! ## Stages -/

/-- **The stage of a search** that has read units from an offset on. -/
inductive UnitStage (e : Encoding) (P : PolicyTable) (o : Nat) (t : Tokenizer σ) :
    List UInt32 → Prop
  /-- nothing but units between lexemes has been read -/
  | idle (gap : List UInt32) (hgap : ∀ u ∈ gap, Passes e P u) (hactive : t.active = [])
    (hresults : t.results = []) (hrun : t.unmatched = none) : UnitStage e P o t gap
  /-- behind the gap, characters have joined an unmatched run -/
  | run (gap front : List UInt32) (u : UInt32) (tail : List UInt32)
    (hgap : ∀ v ∈ gap, Passes e P v) (hu : ¬Silent e P u) (htail : ∀ v ∈ tail, Silent e P v)
    (hactive : t.active = []) (hresults : t.results = []) (run : UnmatchedRun)
    (hrun : t.unmatched = some run) (hstart : run.start = o + gap.length)
    (hstop : run.stop = o + (gap ++ front).length + e.glyphUnits u)
    (htext : run.text = (heard e P (o + gap.length) (front ++ [u])).text) :
    UnitStage e P o t (gap ++ front ++ u :: tail)
  /-- behind the gap, candidates have begun -/
  | live (gap mid : List UInt32) (hgap : ∀ u ∈ gap, Passes e P u) (b : Bucket σ)
    (hactive : t.active = [b]) (hkey : b.key = 0) (hstart : b.start = o + gap.length)
    (hrun : t.unmatched = none) (hsignature : t.signature = heard e P (o + gap.length) mid)
    (hresults : ∀ r ∈ t.results, TakenFrom e P o (gap ++ mid) r.lexeme) :
    UnitStage e P o t (gap ++ mid)

open Tokenizer

namespace UnitStage

variable {e : Encoding} {P : PolicyTable} {o : Nat} {t v : Tokenizer σ} {read : List UInt32}
  {u : UInt32}

/-- A stage is told by what is active, what waits and what is unmatched, and
by the signature while something is active. -/
theorem congr (h : UnitStage e P o t read) (hactive : v.active = t.active)
    (hresults : v.results = t.results) (hrun : v.unmatched = t.unmatched)
    (hsignature : t.active ≠ [] → v.signature = t.signature) : UnitStage e P o v read := by
  cases h with
  | idle _ hgap ha hr hn =>
    exact .idle _ hgap (hactive.trans ha) (hresults.trans hr) (hrun.trans hn)
  | run gap front u tail hgap hu htail ha hr run hn hstart hstop htext =>
    exact .run gap front u tail hgap hu htail (hactive.trans ha) (hresults.trans hr) run
      (hrun.trans hn) hstart hstop htext
  | live gap mid hgap b ha hkey hstart hn hs hr =>
    exact .live gap mid hgap b (hactive.trans ha) hkey hstart (hrun.trans hn)
      ((hsignature (by simp [ha])).trans hs) (by rwa [hresults])

/-- A search starts with an empty gap. -/
theorem of_fresh (h : t.Fresh) : UnitStage e P o t [] :=
  .idle [] (List.forall_mem_nil _) h.active h.results h.unmatched

theorem tracked (h : UnitStage e P o t read) (lines : LineTable) (run : Option Nat) :
    UnitStage e P o (t.tracked lines run) read :=
  h.congr rfl rfl rfl (signature_tracked_of_live lines run)

theorem active_cases (h : UnitStage e P o t read) :
    t.active = [] ∧ t.results = [] ∨ ∃ b, t.active = [b] := by
  cases h with
  | idle _ _ hactive hresults => exact .inl ⟨hactive, hresults⟩
  | run _ _ _ _ _ _ _ hactive hresults => exact .inl ⟨hactive, hresults⟩
  | live _ _ _ b hactive => exact .inr ⟨b, hactive⟩

/-- **A silent unit** joins the gap, the tail of a run or the units of a
bucket. -/
theorem silent (h : UnitStage e P o t read) (hu : Silent e P u) :
    UnitStage e P o t (read ++ [u]) := by
  cases h with
  | idle _ hgap hactive hresults hrun =>
    exact .idle _ (List.forall_mem_append.2 ⟨hgap, List.forall_mem_singleton.2 (.inl hu)⟩) hactive
      hresults hrun
  | run gap front w tail hgap hw htail hactive hresults run hrun hstart hstop htext =>
    rw [List.append_assoc, List.cons_append]
    exact .run gap front w (tail ++ [u]) hgap hw
      (List.forall_mem_append.2 ⟨htail, List.forall_mem_singleton.2 hu⟩) hactive hresults run hrun
      hstart hstop htext
  | live gap mid hgap b hactive hkey hstart hrun hsignature hresults =>
    rw [List.append_assoc]
    refine .live gap (mid ++ [u]) hgap b hactive hkey hstart hrun ?_ fun r hr => ?_
    · rw [heard_snoc_of_silent hu, hsignature]
    · rw [← List.append_assoc]
      exact (hresults r hr).append [u]

/-- The lexeme of an unmatched run is taken from what has been read. -/
theorem takenFrom_run (h : UnitStage e P o t read) {run : UnmatchedRun}
    (hrun : t.unmatched = some run) : TakenFrom e P o read run.ready.lexeme := by
  cases h with
  | idle _ _ _ _ hnone => exact nomatch hnone.symm.trans hrun
  | live _ _ _ _ _ _ _ hnone => exact nomatch hnone.symm.trans hrun
  | run gap front u tail hgap hu _ _ _ run' hrun' hstart hstop htext =>
    obtain rfl := Option.some.inj (hrun'.symm.trans hrun)
    refine ⟨gap, front ++ [u], tail, _, by simp, hgap, hstart, .promised front u ?_ rfl ?_ ?_⟩
    · exact fun hzero => hu (.inl hzero)
    · show run'.stop = _
      rw [hstop, List.length_append, ← Nat.add_assoc]
    · show run'.text = _
      rw [htext, heard_snoc_of_not_silent hu, Signature.text_append]
      rfl

variable {here : Nat}

/-- Without candidates, a search that goes on is in a stage again. -/
theorem onward_idle (h : UnitStage e P o t read) (hactive : t.active = [])
    (hpolicies : t.policies = P) (hhere : here = o + read.length) (hlead : e.glyphUnits u ≠ 0)
    (htreated : TreatedIdle t here (e.glyphUnits u) (leadToChar u) v false) :
    UnitStage e P o v (read ++ [u]) := by
  have hloud (hignore : (P.get (leadToChar u)).ignore = false) : ¬Silent e P u := by
    simp [Silent, hlead, hignore]
  cases htreated with
  | ignored _ _ hignore hv =>
    rw [hpolicies] at hignore
    exact hv ▸ h.silent (.inr hignore)
  | trimmed htrim hnone hv =>
    rw [hpolicies] at htrim
    cases h with
    | live _ _ _ b hone => simp [hone] at hactive
    | run _ _ _ _ _ _ _ _ _ _ hrun => exact nomatch hnone.symm.trans hrun
    | idle _ hgap _ hresults =>
      exact .idle _ (List.forall_mem_append.2 ⟨hgap, List.forall_mem_singleton.2 (.inr htrim)⟩)
        (hv ▸ hactive) (hv ▸ hresults) (hv ▸ hnone)
  | begun _ _ hignore _ hnone hr ha hs hn =>
    rw [hpolicies] at hignore
    cases h with
    | live _ _ _ b hone => simp [hone] at hactive
    | run _ _ _ _ _ _ _ _ _ _ hrun => exact nomatch hnone.symm.trans hrun
    | idle _ hgap =>
      refine .live read [u] hgap _ ha rfl hhere hn ?_ ?_
      · rw [hs, hhere, heard_cons_of_not_silent (hloud hignore), heard]
      · rw [hr]
        exact List.forall_mem_nil _
  | unmatched _ _ hignore _ ha hr hrun' =>
    rw [hpolicies] at hignore
    have hu := hloud hignore
    cases h with
    | live _ _ _ b hone => simp [hone] at hactive
    | idle _ hgap _ _ hnone =>
      rw [extendedRun, hnone] at hrun'
      have hstage := UnitStage.run (t := v) (e := e) (P := P) (o := o) read [] u [] hgap hu
        (List.forall_mem_nil _) ha hr _ hrun' hhere (by rw [List.append_nil, ← hhere])
        (by rw [List.nil_append, heard_cons_of_not_silent hu]; rfl)
      simpa using hstage
    | run gap front w tail hgap hw htail _ _ run hrun hstart hstop htext =>
      -- the silent units of the tail now lie inside the run
      rw [extendedRun, hrun] at hrun'
      have hinside : heard e P (o + gap.length) (front ++ w :: tail)
          = heard e P (o + gap.length) (front ++ [w]) := by
        rw [List.append_cons, heard_append, heard_of_silent htail, List.append_nil]
      have hstage := UnitStage.run (t := v) (e := e) (P := P) (o := o) gap (front ++ w :: tail) u []
        hgap hu (List.forall_mem_nil _) ha hr _ hrun' hstart
        (by rw [← List.append_assoc, ← hhere]) ?_
      · simpa using hstage
      · show run.text ++ [leadToChar u] = _
        rw [htext, heard_snoc_of_not_silent hu, hinside, Signature.text_append]
        rfl

/-- Without candidates, what is ready is taken from what has been read. -/
theorem ready_idle (h : UnitStage e P o t read) (hactive : t.active = [])
    (hhere : here = o + read.length) (hlead : e.glyphUnits u ≠ 0)
    (htreated : TreatedIdle t here (e.glyphUnits u) (leadToChar u) v true) :
    ∀ r ∈ v.results, TakenFrom e P o (read ++ [u]) r.lexeme := by
  cases htreated with
  | interrupted run hrun _ hresults =>
    rw [hresults, List.forall_mem_singleton]
    exact (h.takenFrom_run hrun).append [u]
  | disallowed _ _ hnone hresults =>
    rw [hresults, List.forall_mem_singleton]
    cases h with
    | live _ _ _ b hone => simp [hone] at hactive
    | run _ _ _ _ _ _ _ _ _ _ hrun => exact nomatch hnone.symm.trans hrun
    | idle _ hgap =>
      refine ⟨read, [u], [], _, by simp, hgap, hhere, .promised [] u hlead rfl ?_ rfl⟩
      rw [hhere]
      rfl

/-- With candidates, a search that goes on is in a stage again. -/
theorem onward_live (h : UnitStage e P o t read) {b : Bucket σ} (hactive : t.active = [b])
    (hfits : b.Fits t.signature) (hpolicies : t.policies = P) (hhere : here = o + read.length)
    (hlead : e.glyphUnits u ≠ 0) (htreated : TreatedLive t b here (leadToChar u) v false) :
    UnitStage e P o v (read ++ [u]) := by
  cases htreated with
  | ignored hignore hv =>
    rw [hpolicies] at hignore
    exact hv ▸ h.silent (.inr hignore)
  | onward hignore st hst hwhole hkept hwait hactive' hresults' hsignature' hunmatched =>
    rw [hpolicies] at hignore
    cases h with
    | idle _ _ hnone => simp [hactive] at hnone
    | run _ _ _ _ _ _ _ hnone => simp [hactive] at hnone
    | live gap mid hgap b' hone hkey hstart hrun hsignature hresults =>
      obtain rfl : b' = b := by simpa [hone] using hactive
      have hu : ¬Silent e P u := by simp [Silent, hlead, hignore]
      rw [List.append_assoc]
      refine .live gap (mid ++ [u]) hgap _ hactive' hkey hstart (hunmatched.trans hrun) ?_
        fun r hr => ?_
      · rw [hsignature', heard_snoc_of_not_silent hu, hsignature, hhere, List.length_append,
          Nat.add_assoc]
      · rw [← List.append_assoc]
        rw [hresults'] at hr
        obtain hr | hr := List.mem_append.1 hr
        · exact (hresults r hr).append [u]
        · obtain ⟨x, hx, -, hr⟩ := hst.ready_from hr
          exact (takenFrom_of_mem_yield hgap hkey hstart hsignature hhere hfits hx hr).append [u]

/-- With candidates, what is ready is taken from what has been read. -/
theorem ready_live (h : UnitStage e P o t read) {b : Bucket σ} (hactive : t.active = [b])
    (hfits : b.Fits t.signature) (hhere : here = o + read.length) {c : Char}
    (htreated : TreatedLive t b here c v true) :
    ∀ r ∈ v.results, TakenFrom e P o (read ++ [u]) r.lexeme := by
  cases h with
  | idle _ _ hnone => simp [hactive] at hnone
  | run _ _ _ _ _ _ _ hnone => simp [hactive] at hnone
  | live gap mid hgap b' hone hkey hstart hrun hsignature hresults =>
    obtain rfl : b' = b := by simpa [hone] using hactive
    intro r hr
    cases htreated with
    | ready _ st hst _ hresults' =>
      rw [hresults'] at hr
      obtain hr | hr := List.mem_append.1 hr
      · exact (hresults r hr).append [u]
      · obtain ⟨x, hx, -, hr⟩ := hst.ready_from hr
        exact (takenFrom_of_mem_yield hgap hkey hstart hsignature hhere hfits hx hr).append [u]
    | wasted _ _ _ hresults' =>
      rw [hresults', List.mem_singleton] at hr
      rw [hr]
      exact (takenFrom_wasted hgap hkey hstart hsignature hhere hfits).append [u]

/-- **A search that goes on is in a stage again**, with one more unit read. -/
theorem onward (h : UnitStage e P o t read) {floor : Nat} (hplaced : t.Placed floor)
    (he : t.encoding = e) (hpolicies : t.policies = P) (hmode : t.mode.interleaved = false)
    (hposition : t.position = o + read.length) (hfed : Fed t u false v) :
    UnitStage e P o v (read ++ [u]) := by
  subst he
  cases hfed with
  | passed hunit =>
    exact (h.silent (.inl hunit)).congr rfl rfl rfl fun hne => by simp [step, hne]
  | led hunit lines run _ _ _ htreated =>
    have hstage := h.tracked lines run
    obtain ⟨hactive, hresults⟩ | ⟨b, hactive⟩ := hstage.active_cases
    · exact hstage.onward_idle hactive hpolicies hposition hunit
        (htreated.idle hactive hresults (signature_tracked_of_idle lines run hactive))
    · have hfits := (hplaced.held.tracked lines run).fits b (by simp [hactive])
      exact hstage.onward_live hactive hfits hpolicies hposition hunit
        (htreated.live hactive hfits hmode)

/-- **What is ready is taken from what has been read.** -/
theorem ready (h : UnitStage e P o t read) {floor : Nat} (hplaced : t.Placed floor)
    (he : t.encoding = e) (hmode : t.mode.interleaved = false)
    (hposition : t.position = o + read.length) (hfed : Fed t u true v) :
    ∀ r ∈ v.results, TakenFrom e P o (read ++ [u]) r.lexeme := by
  subst he
  cases hfed with
  | led hunit lines run _ _ _ htreated =>
    have hstage := h.tracked lines run
    obtain ⟨hactive, hresults⟩ | ⟨b, hactive⟩ := hstage.active_cases
    · exact hstage.ready_idle hactive hposition hunit
        (htreated.idle hactive hresults (signature_tracked_of_idle lines run hactive))
    · have hfits := (hplaced.held.tracked lines run).fits b (by simp [hactive])
      exact hstage.ready_live hactive hfits hposition (htreated.live hactive hfits hmode)

/-- At the end of the units, what waits is taken from them. -/
theorem takenFrom_finished (h : UnitStage e P o t read)
    (hfits : ∀ b ∈ t.active, b.Fits t.signature) (hposition : t.position = o + read.length)
    {r : Ready} (hr : r ∈ t.finished.results) : TakenFrom e P o read r.lexeme := by
  obtain hr | ⟨b, hb, x, hx, hr⟩ | ⟨hne, rfl⟩ | ⟨run, hrun, rfl⟩ := mem_finished hr
  · cases h with
    | idle _ _ _ hnone => simp [hnone] at hr
    | run _ _ _ _ _ _ _ _ hnone => simp [hnone] at hr
    | live _ _ _ _ _ _ _ _ _ hresults => exact hresults r hr
  · cases h with
    | idle _ _ hnone => simp [hnone] at hb
    | run _ _ _ _ _ _ _ hnone => simp [hnone] at hb
    | live gap mid hgap b' hone hkey hstart _ hsignature =>
      obtain rfl : b = b' := by simpa [hone] using hb
      exact takenFrom_of_mem_yield hgap hkey hstart hsignature hposition (hfits b hb) hx hr
  · cases h with
    | idle _ _ hnone => exact absurd hnone hne
    | run _ _ _ _ _ _ _ hnone => exact absurd hnone hne
    | live gap mid hgap b hone hkey hstart _ hsignature =>
      exact takenFrom_wasted hgap hkey hstart hsignature hposition (hfits b (by simp [hone]))
  · exact h.takenFrom_run hrun

/-- If nothing waits at the end of the units, all of them are a gap. -/
theorem passes_of_finished (h : UnitStage e P o t read) (hnone : t.finished.results = []) :
    ∀ u ∈ read, Passes e P u := by
  rw [Tokenizer.finished, List.append_eq_nil_iff, unmatched_covered] at hnone
  cases h with
  | idle _ hgap => exact hgap
  | run _ _ _ _ _ _ _ _ _ run hrun => simp [hrun] at hnone
  | live _ _ _ b hone =>
    have hcovered := hnone.1
    rw [covered] at hcovered
    split at hcovered
    · simp [reporting] at hcovered
    next hsettled => simp [hone, hcovered] at hsettled

end UnitStage

/-- **What a search finds is taken from the units before it**, or all of them
are a gap. -/
theorem Searched.takenFrom {e : Encoding} {P : PolicyTable} {o floor : Nat} {t v : Tokenizer σ}
    {read units : List UInt32} (h : Searched t units v) (hstage : UnitStage e P o t read)
    (hplaced : t.Placed floor) (he : t.encoding = e) (hpolicies : t.policies = P)
    (hmode : t.mode.interleaved = false) (hposition : t.position = o + read.length) :
    (v.results = [] → ∀ u ∈ read ++ units, Passes e P u) ∧
      ∀ r ∈ v.results, TakenFrom e P o (read ++ units) r.lexeme := by
  induction h generalizing read with
  | finished t =>
    rw [List.append_nil]
    exact ⟨hstage.passes_of_finished,
      fun r => hstage.takenFrom_finished hplaced.held.fits hposition⟩
  | @ready t v u rest hfed =>
    have hready := hstage.ready hplaced he hmode hposition hfed
    refine ⟨fun hnone => absurd hnone hfed.results_ne_nil, fun r hr => ?_⟩
    rw [List.append_cons]
    exact (hready r hr).append rest
  | @onward t w v u rest hfed _ ih =>
    have hsetup := hfed.setupAs
    have hnext : w.position = o + (read ++ [u]).length := by
      rw [hfed.position_eq, hposition, List.length_append]
      rfl
    rw [List.append_cons]
    exact ih (hstage.onward hplaced he hpolicies hmode hposition hfed) (hfed.placed hplaced)
      (hsetup.encoding.trans he) (hsetup.policies.trans hpolicies)
      ((congrArg Mode.interleaved hsetup.mode).trans hmode) hnext

end Lexing
