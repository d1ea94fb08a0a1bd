import Lexing.Proofs.Scanner.Characters
import Lexing.Proofs.Tokenizer.Recoded
import Lexing.Proofs.Tokenizer.Sequential
import Lexing.Token.Numeric

/-!
# The encoding changes offsets only

The units of a source differ from encoding to encoding, and with them the
offsets that a scan counts, the widths of its characters and how often it is
fed. What corresponds are the places between characters (`SamePlace`). Two
scans of one source are followed side by side, from one such place to the next:
what a search finds in one encoding it finds in the other
(`Tokenizer.Abreast.search`), and a commit moves both scans to the same place
(`Scanner.Abreast.commit`).

Only the order in which lexemes are taken needs more than the order of offsets,
since it begins with their sizes, and of two pieces of a text one encoding may
make the first the longer and another the second. Without interleaving all that
waits starts at one place (`Tokenizer.StartsTogether`), so that the sizes are
in the order of the ends (`takenBefore_congr`).
-/

namespace Lexing

variable {σ : Type}

open Tokenizer

/-! ## What waits starts at one place -/

namespace Tokenizer

variable {t u v : Tokenizer σ} {here width floor : Nat} {c : Char}

/-- What waits starts at one place. -/
def StartsTogether (t : Tokenizer σ) : Prop :=
  ∀ r ∈ t.results, ∀ r' ∈ t.results, r.lexeme.start = r'.lexeme.start

theorem StartsTogether.of_forall (start : Nat) (h : ∀ r ∈ t.results, r.lexeme.start = start) :
    t.StartsTogether := fun r hr r' hr' => (h r hr).trans (h r' hr').symm

theorem StartsTogether.of_singleton {r : Ready} (h : t.results = [r]) : t.StartsTogether :=
  .of_forall r.lexeme.start fun r' hr' => by
    rw [h, List.mem_singleton] at hr'
    exact congrArg (·.lexeme.start) hr'

/-- **Without interleaving** a tokenizer has one bucket at most, and what waits
starts where the bucket does. -/
inductive Moored (t : Tokenizer σ) : Prop
  | idle (hactive : t.active = []) (hresults : t.results = [])
  | live (b : Bucket σ) (hactive : t.active = [b]) (hrun : t.unmatched = none)
    (hresults : ∀ r ∈ t.results, r.lexeme.start = b.start)

theorem Moored.congr (h : t.Moored) (hactive : u.active = t.active)
    (hresults : u.results = t.results) (hrun : u.unmatched = t.unmatched) : u.Moored := by
  cases h with
  | idle ha hr => exact .idle (hactive.trans ha) (hresults.trans hr)
  | live b ha hn hr => exact .live b (hactive.trans ha) (hrun.trans hn) (hresults ▸ hr)

/-- What candidates of a bucket give starts where the bucket does. -/
theorem CandidateStep.start_eq {b : Bucket σ} {s : Signature} {terminate firstOnly : Bool}
    {xs : List (Candidate σ)} {st : Stepped (Candidate σ)}
    (h : CandidateStep b s here c terminate firstOnly xs st) {r : Ready} (hr : r ∈ st.ready) :
    r.lexeme.start = b.start := by
  obtain ⟨x, -, -, hr⟩ := h.ready_from hr
  obtain ⟨n, st, -, rfl⟩ := Bucket.mem_yield.1 hr
  rfl

theorem TreatedIdle.moored (h : TreatedIdle t here width c u false) (hm : t.Moored) : u.Moored := by
  cases h with
  | trimmed _ _ hu => exact hu ▸ hm
  | ignored _ _ _ hu => exact hu ▸ hm
  | unmatched _ _ _ _ hactive hresults => exact .idle hactive hresults
  | begun _ _ _ _ _ hresults hactive _ hrun =>
    exact .live _ hactive hrun fun r hr => by simp [hresults] at hr

theorem TreatedIdle.startsTogether (h : TreatedIdle t here width c u true) :
    u.StartsTogether := by
  cases h with
  | disallowed _ _ _ hresults => exact .of_singleton hresults
  | interrupted _ _ _ hresults => exact .of_singleton hresults

variable {b : Bucket σ}

theorem TreatedLive.moored (h : TreatedLive t b here c u false) (hm : t.Moored)
    (hrun : t.unmatched = none) (hresults : ∀ r ∈ t.results, r.lexeme.start = b.start) :
    u.Moored := by
  cases h with
  | ignored _ hu => exact hu ▸ hm
  | onward _ st hst _ _ _ hactive hresults' _ hrun' =>
    refine .live _ hactive (hrun'.trans hrun) fun r hr => ?_
    rw [hresults'] at hr
    exact (List.mem_append.1 hr).elim (hresults r) hst.start_eq

theorem TreatedLive.startsTogether (h : TreatedLive t b here c u true)
    (hresults : ∀ r ∈ t.results, r.lexeme.start = b.start) : u.StartsTogether := by
  cases h with
  | wasted _ _ _ hresults => exact .of_singleton hresults
  | ready _ st hst _ hresults' =>
    refine .of_forall b.start fun r hr => ?_
    rw [hresults'] at hr
    exact (List.mem_append.1 hr).elim (hresults r) hst.start_eq

/-- **A character** keeps a tokenizer moored, or what waits starts at one place. -/
theorem Fed.moored {unit : UInt32} {r : Bool} (h : Fed t unit r v) (hm : t.Moored)
    (hplaced : t.Placed floor) (hmode : t.mode.interleaved = false) :
    (r = false → v.Moored) ∧ (r = true → v.StartsTogether) := by
  cases h with
  | passed => exact ⟨fun _ => hm.congr rfl rfl rfl, fun h => nomatch h⟩
  | led _ lines run _ _ _ htreated =>
    have hm' : (t.tracked lines run).Moored := hm.congr rfl rfl rfl
    have hheld := hplaced.held.tracked lines run
    cases hm with
    | idle hactive hresults =>
      have hidle := htreated.idle hactive hresults (signature_tracked_of_idle lines run hactive)
      refine ⟨?_, ?_⟩ <;> rintro rfl
      · exact hidle.moored hm'
      · exact hidle.startsTogether
    | live b hactive hrun hresults =>
      have hfits := hheld.fits b (by simp [tracked, Tokenizer.step, hactive])
      have hlive := htreated.live hactive hfits hmode
      refine ⟨?_, ?_⟩ <;> rintro rfl
      · exact hlive.moored hm' hrun hresults
      · exact hlive.startsTogether hresults

theorem Moored.finished (h : t.Moored) : t.finished.StartsTogether := by
  cases h with
  | idle hactive hresults =>
    -- the unmatched run is all there may be
    have hfinished := results_finished_of_idle hactive
    rw [hresults, List.nil_append] at hfinished
    intro r hr r' hr'
    rw [hfinished, Option.mem_toList] at hr hr'
    rw [Option.mem_unique hr hr']
  | live b hactive hrun hresults =>
    have hfinished : t.finished.results = t.covered.results := by
      simp [Tokenizer.finished, unmatched_covered, hrun]
    suffices hcovered : t.covered.StartsTogether by rwa [StartsTogether, hfinished]
    rw [covered]
    split
    next hwasted =>
      rw [Bool.and_eq_true, List.isEmpty_iff] at hwasted
      exact .of_singleton (by rw [reporting, hwasted.2]; rfl)
    next =>
      refine .of_forall b.start fun r hr => ?_
      obtain hr | hr := List.mem_append.1 hr
      · exact hresults r hr
      · rw [hactive, List.flatMap_singleton] at hr
        obtain ⟨x, -, hr⟩ := List.mem_flatMap.1 hr
        obtain ⟨n, st, -, rfl⟩ := Bucket.mem_yield.1 hr
        rfl

end Tokenizer

theorem Searched.startsTogether {t v : Tokenizer σ} {units : List UInt32} {floor : Nat}
    (h : Searched t units v) (hm : t.Moored) (hplaced : t.Placed floor)
    (hmode : t.mode.interleaved = false) : v.StartsTogether := by
  induction h with
  | finished t => exact hm.finished
  | ready hfed => exact (hfed.moored hm hplaced hmode).2 rfl
  | onward hfed _ ih =>
    exact ih ((hfed.moored hm hplaced hmode).1 rfl) (hfed.placed hplaced)
      ((congrArg Mode.interleaved hfed.setupAs.mode).trans hmode)

/-! ## Taking -/

/-- Lists that correspond are sorted alike, if the orders agree on them. -/
theorem rel_mergeSort {α β : Type} {S : α → β → Prop} {le : α → α → Bool} {le' : β → β → Bool}
    {xs : List α} {ys : List β} (h : List.Forall₂ S xs ys)
    (hle : ∀ a ∈ xs, ∀ b ∈ xs, ∀ a' b', S a a' → S b b' → le a b = le' a' b') :
    List.Forall₂ S (xs.mergeSort le) (ys.mergeSort le') := by
  -- both lists are sorted as the list of their pairs is
  have hfst : (xs.zip ys).map Prod.fst = xs := List.map_fst_zip (Nat.le_of_eq h.length_eq)
  have hsnd : (xs.zip ys).map Prod.snd = ys := List.map_snd_zip (Nat.le_of_eq h.length_eq.symm)
  have hpairs : ∀ x ∈ xs.zip ys, ∀ y ∈ xs.zip ys, le x.1 y.1 = le' x.2 y.2 := fun x hx y hy =>
    hle _ (List.of_mem_zip hx).1 _ (List.of_mem_zip hy).1 _ _ (List.forall₂_zip h hx)
      (List.forall₂_zip h hy)
  have hxs := List.map_mergeSort (r := fun x y => le x.1 y.1) (s := le) (f := Prod.fst)
    (l := xs.zip ys) fun _ _ _ _ => rfl
  have hys := List.map_mergeSort (r := fun x y => le x.1 y.1) (s := le') (f := Prod.snd)
    (l := xs.zip ys) hpairs
  rw [hfst] at hxs
  rw [hsnd] at hys
  rw [← hxs, ← hys, List.forall₂_map_left_iff, List.forall₂_map_right_iff, List.forall₂_same]
  exact fun x hx => List.forall₂_zip h (List.mem_mergeSort.1 hx)

namespace Tokenizer

variable {R : Nat → Nat → Prop} {t u : Tokenizer σ}

/-- Whether lexemes start together shows in what is taken. -/
theorem StartsTogether.of_take_eq (h : t.StartsTogether) (ht : u.take.1 = t.take.1) :
    u.StartsTogether := by
  have hmem {r : Ready} (hr : r ∈ u.results) : ∃ q ∈ t.results, q.lexeme = r.lexeme := by
    rw [← mem_take, ← ht, mem_take]
    exact ⟨r, hr, rfl⟩
  intro r hr r' hr'
  obtain ⟨q, hq, hqr⟩ := hmem hr
  obtain ⟨q', hq', hqr'⟩ := hmem hr'
  rw [← hqr, ← hqr', h q hq q' hq']

/-- What is taken ends behind the start of the lines. -/
theorem Placed.origin_le_of_taken {floor : Nat} (h : t.Placed floor) {l : Lexeme}
    (hl : l ∈ t.take.1) : t.lines.origin ≤ l.stop := by
  obtain ⟨r, hr, rfl⟩ := mem_take.1 hl
  have habove := h.held.results r hr
  exact Nat.le_trans h.lines.origin_le
    (Nat.le_trans habove.floor_le (Nat.le_of_lt habove.nonempty))

/-- Of lexemes that start together the same are taken first, since the order
of their sizes is that of their ends. -/
theorem takenBefore_congr (hR : KeepsOrder R) {a b a' b' : Ready} (ha : a.Recoded R a')
    (hb : b.Recoded R b') (hstart : a.lexeme.start = b.lexeme.start) :
    takenBefore a b = takenBefore a' b' := by
  have hale := ha.lexeme.start_le
  have hble := hb.lexeme.start_le
  have hale' := (hR.le_iff ha.lexeme.start ha.lexeme.stop).1 hale
  have hble' := (hR.le_iff hb.lexeme.start hb.lexeme.stop).1 hble
  have hstart' : a'.lexeme.start = b'.lexeme.start := by
    have h₁ := hR.le_iff ha.lexeme.start hb.lexeme.start
    have h₂ := hR.le_iff hb.lexeme.start ha.lexeme.start
    omega
  have hstop₁ := hR.le_iff ha.lexeme.stop hb.lexeme.stop
  have hstop₂ := hR.le_iff hb.lexeme.stop ha.lexeme.stop
  rw [Bool.eq_iff_iff, takenBefore_iff, takenBefore_iff, ha.rank, hb.rank]
  simp only [Lexeme.size, hstart, hstart', Nat.lt_irrefl, true_and, false_or] at *
  have hsize : b.lexeme.stop - b.lexeme.start < a.lexeme.stop - b.lexeme.start ↔
      b'.lexeme.stop - b'.lexeme.start < a'.lexeme.stop - b'.lexeme.start := by omega
  have hsame : a.lexeme.stop - b.lexeme.start = b.lexeme.stop - b.lexeme.start ↔
      a'.lexeme.stop - b'.lexeme.start = b'.lexeme.stop - b'.lexeme.start := by omega
  rw [hsize, hsame]

/-- **The same lexemes are taken**, in the same order. -/
theorem Recoded.take (h : t.Recoded R u) (hR : KeepsOrder R) (hstarts : t.StartsTogether) :
    List.Forall₂ (Lexeme.Recoded R) t.take.1 u.take.1 := by
  rw [Tokenizer.take, Tokenizer.take]
  refine List.rel_map (fun _ _ hr => hr.lexeme) (rel_mergeSort h.results ?_)
  exact fun a ha b hb a' b' haa' hbb' => takenBefore_congr hR haa' hbb' (hstarts a ha b hb)

end Tokenizer

/-! ## Places in a text -/

/-- Where the same characters of a text come to an end in two encodings. -/
def SamePlace (e f : Encoding) (o : Nat) (source : List Char) (p q : Nat) : Prop :=
  ∃ front back, source = front ++ back ∧ p = o + e.size front ∧ q = o + f.size front

section Places

variable {e f : Encoding} {o : Nat} {source front text : List Char} {p q : Nat}

/-- The longer of two fronts of a text takes more units. -/
theorem Encoding.size_le_iff (e : Encoding) {front' back back' : List Char}
    (h : front ++ back = front' ++ back') :
    e.size front ≤ e.size front' ↔ front.length ≤ front'.length := by
  have hlonger (a b : List Char) : e.size a ≤ e.size (a ++ b) ↔ a.length ≤ (a ++ b).length := by
    simp
  obtain ⟨mid, rfl, -⟩ | ⟨mid, rfl, -⟩ := List.append_eq_append_iff.1 h
  · exact hlonger front mid
  · cases mid with
    | nil => simp
    | cons c mid =>
      have := e.unitLen_pos c
      simp only [Encoding.size_append, Encoding.size_cons, List.length_append, List.length_cons]
      omega

theorem keepsOrder_samePlace (e f : Encoding) (o : Nat) (source : List Char) :
    KeepsOrder (SamePlace e f o source) := by
  refine ⟨?_⟩
  rintro _ _ _ _ ⟨front, back, rfl, rfl, rfl⟩ ⟨front', back', hsplit, rfl, rfl⟩
  rw [Nat.add_le_add_iff_left, Nat.add_le_add_iff_left, e.size_le_iff hsplit, f.size_le_iff hsplit]

end Places

/-! ## Searching -/

namespace Tokenizer

variable {t u v : Tokenizer σ}

/-- A search passes over units that lead nothing. -/
theorem search_append {skipped : List UInt32}
    (hskipped : ∀ unit ∈ skipped, t.encoding.glyphUnits unit = 0) (rest : List UInt32) :
    Scanner.search t (skipped ++ rest) = Scanner.search (t.passedOver skipped.length) rest := by
  induction skipped generalizing t with
  | nil => rw [List.nil_append, List.length_nil, passedOver_zero]
  | cons unit skipped ih =>
    obtain ⟨hunit, hskipped⟩ := List.forall_mem_cons.1 hskipped
    have hfeed : t.feed unit = .ok (false, t.step) := by rw [feed, if_pos hunit]
    rw [List.cons_append, Scanner.search, hfeed, List.length_cons, ← step_passedOver]
    exact ih hskipped

theorem feed_lead {unit : UInt32} {c : Char} (h : t.encoding.Leads unit c) :
    t.feed unit = t.step.trackLines t.position (toAscii c) >>=
      fun t' => t'.feedChar t.position (t.encoding.unitLen c) (toAscii c) := by
  have hpos := t.encoding.unitLen_pos c
  rw [feed, h.glyphUnits_eq, h.leadToChar_eq, if_neg (Nat.ne_of_gt hpos)]

/-- Between characters only candidates keep a signature. -/
theorem signature_step_passedOver (t : Tokenizer σ) (n : Nat) :
    (t.passedOver n).step.signature = t.step.signature := by
  by_cases hidle : t.active = [] <;> simp [step, passedOver, hidle]

/-- What is taken from tokenizers that correspond. -/
def TakenAlike (R : Nat → Nat → Prop) (x y : List Lexeme × Tokenizer σ) : Prop :=
  ∃ v w : Tokenizer σ, x = v.take ∧ y = w.take ∧ v.Recoded R w

/-- **Two tokenizers at one place** of a text, each in its own encoding. The
signature of a tokenizer without candidates is out of date, so they need only
correspond once they move on. -/
structure Abreast (e f : Encoding) (o : Nat) (source front : List Char) (t u : Tokenizer σ) :
    Prop where
  recoded : t.step.Recoded (SamePlace e f o source) u.step
  encoding : t.encoding = e ∧ u.encoding = f
  position : t.position = o + e.size front ∧ u.position = o + f.size front
  placed : (∃ floor, t.Placed floor) ∧ ∃ floor, u.Placed floor

namespace Abreast

variable {e f : Encoding} {o : Nat} {source front text : List Char} {c : Char}

theorem samePlace (h : Abreast e f o source front t u) (hsource : source = front ++ text) :
    SamePlace e f o source t.position u.position :=
  ⟨front, text, hsource, h.position.1, h.position.2⟩

/-- Behind a character they are abreast again. -/
theorem passedOver {w : Tokenizer σ} {unit unit' : UInt32} {r r' : Bool}
    (h : Abreast e f o source front t u) (hfed : Fed t unit r v) (hfed' : Fed u unit' r' w)
    (hvw : v.Recoded (SamePlace e f o source) w) (c : Char) :
    Abreast e f o source (front ++ [c]) (v.passedOver (e.unitLen c - 1))
      (w.passedOver (f.unitLen c - 1)) where
  recoded := by
    refine { hvw.step with signature := ?_ }
    rw [signature_step_passedOver, signature_step_passedOver]
    exact hvw.step.signature
  encoding := ⟨hfed.setupAs.encoding.trans h.encoding.1, hfed'.setupAs.encoding.trans h.encoding.2⟩
  position := by
    have he := e.unitLen_pos c
    have hf := f.unitLen_pos c
    have hv := hfed.position_eq
    have hw := hfed'.position_eq
    obtain ⟨ht, hu⟩ := h.position
    simp only [Tokenizer.passedOver, Encoding.add_size_snoc]
    omega
  placed :=
    have ⟨⟨_, ht⟩, ⟨_, hu⟩⟩ := h.placed
    ⟨⟨_, (hfed.placed ht).passedOver _⟩, ⟨_, (hfed'.placed hu).passedOver _⟩⟩

/-- Feeding the lead of a character comes to the same. -/
theorem feed (h : Abreast e f o source front t u) (hsource : source = front ++ c :: text)
    {unit unit' : UInt32} (hunit : e.Leads unit c) (hunit' : f.Leads unit' c) :
    Agree (Answered (SamePlace e f o source)) (t.feed unit) (u.feed unit') := by
  have hhere := h.samePlace hsource
  have hbehind : SamePlace e f o source (t.position + t.encoding.unitLen c)
      (u.position + u.encoding.unitLen c) := by
    rw [h.encoding.1, h.encoding.2, h.position.1, h.position.2]
    exact ⟨front ++ [c], text, by simp [hsource], (e.add_size_snoc o front c).symm,
      (f.add_size_snoc o front c).symm⟩
  rw [feed_lead (h.encoding.1.symm ▸ hunit), feed_lead (h.encoding.2.symm ▸ hunit')]
  exact (h.recoded.trackLines hhere _).bind fun v w hvw =>
    hvw.feedChar (keepsOrder_samePlace e f o source) hhere hbehind _

theorem finish_of_idle (h : t.active = []) :
    t.finish = Tokenizer.finish { t with signature := [] } := by
  cases hrun : t.unmatched with
  | none => simp [Tokenizer.finish, h, finishBuckets, flushUnmatched, hrun, bind, Except.bind]
  | some run =>
    cases hmake : Lexeme.make run.start run.stop run.line run.lineStart run.text none none <;>
      simp [Tokenizer.finish, h, finishBuckets, flushUnmatched, hrun, report, hmake, bind,
        Except.bind, pure, Except.pure]

theorem finish (h : Abreast e f o source front t u) (hsource : source = front ++ text) :
    Agree (Answered (SamePlace e f o source)) t.finish u.finish := by
  have hR := keepsOrder_samePlace e f o source
  have hactive : t.active.isEmpty = u.active.isEmpty := isEmpty_congr h.recoded.active
  have hplace := h.samePlace hsource
  cases hidle : t.active.isEmpty with
  | true =>
    rw [finish_of_idle (List.isEmpty_iff.1 hidle),
      finish_of_idle (List.isEmpty_iff.1 (hactive.symm.trans hidle))]
    exact Recoded.finish { h.recoded with signature := .nil } hR hplace
  | false =>
    have hsignature := h.recoded.signature
    simp only [Tokenizer.step, ← hactive, hidle] at hsignature
    exact Recoded.finish { h.recoded with signature := hsignature } hR hplace

/-- **Two searches come to the same.** -/
theorem search (h : Abreast e f o source front t u) (hsource : source = front ++ text) :
    Agree (TakenAlike (SamePlace e f o source)) (Scanner.search t (text.flatMap e.encodeChar))
      (Scanner.search u (text.flatMap f.encodeChar)) := by
  induction text generalizing front t u with
  | nil => exact (h.finish hsource).bind fun x y ⟨_, hxy⟩ => .ok ⟨x.2, y.2, rfl, rfl, hxy⟩
  | cons c text ih =>
    obtain ⟨unit, conts, hunits, hunit, hlength, hconts⟩ := e.exists_glyph c
    obtain ⟨unit', conts', hunits', hunit', hlength', hconts'⟩ := f.exists_glyph c
    obtain ⟨⟨_, ht⟩, ⟨_, hu⟩⟩ := h.placed
    obtain ⟨r, v, hfeed, hfed⟩ := feed_total ht unit
    obtain ⟨r', w, hfeed', hfed'⟩ := feed_total hu unit'
    obtain ⟨hr, hvw⟩ := h.feed hsource hunit hunit' _ _ hfeed hfeed'
    obtain rfl : r = r' := hr
    have hnext := h.passedOver hfed hfed' hvw c
    have hv : v.encoding = e := hfed.setupAs.encoding.trans h.encoding.1
    have hw : w.encoding = f := hfed'.setupAs.encoding.trans h.encoding.2
    rw [List.flatMap_cons, List.flatMap_cons, hunits, hunits', List.cons_append, List.cons_append,
      Scanner.search, Scanner.search, hfeed, hfeed']
    simp only [bind, Except.bind, isEmpty_congr hvw.results]
    split
    · exact .ok ⟨v, w, rfl, rfl, hvw⟩
    · rw [search_append (hv.symm ▸ hconts), search_append (hw.symm ▸ hconts'), hlength, hlength']
      exact ih hnext (by simp [hsource])

end Abreast

end Tokenizer

/-! ## Scanning -/

namespace Scanner

variable {tokens : List (Token σ)} {s s' : Scanner σ Unit}

/-- **Two scans at one place** of a text, each in its own encoding. -/
structure Abreast (tokens : List (Token σ)) (e f : Encoding) (o : Nat) (source front : List Char)
    (s s' : Scanner σ Unit) : Prop where
  grammar : s.grammar = .ofTokens tokens ∧ s'.grammar = .ofTokens tokens
  tokens : s.tokenizer.tokens = tokens ∧ s'.tokenizer.tokens = tokens
  mode : s.tokenizer.mode.interleaved = false
  fresh : s.tokenizer.Fresh
  tokenizers : s.tokenizer.Abreast e f o source front s'.tokenizer

namespace Abreast

variable {e f : Encoding} {o next next' : Nat} {source front text : List Char}
  {units units' : List UInt32} {v w : Tokenizer σ}

/-- **Two searches take the same**, and leave tokenizers that correspond. -/
theorem taken (h : Abreast tokens e f o source front s s') (hsource : source = front ++ text)
    (hsearch : search s.tokenizer (text.flatMap e.encodeChar) = .ok v.take)
    (hsearch' : search s'.tokenizer (text.flatMap f.encodeChar) = .ok w.take)
    (hsearched : Searched s.tokenizer (text.flatMap e.encodeChar) v) :
    List.Forall₂ (Lexeme.Recoded (SamePlace e f o source)) v.take.1 w.take.1 ∧
      ∀ {p q}, SamePlace e f o source p q →
        (v.rewind p).Recoded (SamePlace e f o source) (w.rewind q) := by
  have hR := keepsOrder_samePlace e f o source
  obtain ⟨⟨_, ht⟩, -⟩ := h.tokenizers.placed
  have hstarts := hsearched.startsTogether (.idle h.fresh.active h.fresh.results) ht h.mode
  obtain ⟨v₀, w₀, hv, hw, hvw⟩ := h.tokenizers.search hsource _ _ hsearch hsearch'
  rw [hv, hw]
  refine ⟨hvw.take hR (hstarts.of_take_eq (congrArg Prod.fst hv.symm)), fun {p q} hpq => ?_⟩
  -- starting afresh forgets what waits
  have hsame (n : Nat) : v.rewind n = v₀.rewind n := congrArg (·.2.rewind n) hv
  have hsame' (n : Nat) : w.rewind n = w₀.rewind n := congrArg (·.2.rewind n) hw
  rw [hsame, hsame']
  exact hvw.rewind hR hpq

/-- Behind a lexeme that both commit they are at one place again. -/
theorem commit (h : Abreast tokens e f o source front s s')
    (hsearched : Searched s.tokenizer units v) (hsearched' : Searched s'.tokenizer units' w)
    {l k : Lexeme} (hl : l ∈ v.take.1) (hk : k ∈ w.take.1) {front' : List Char}
    (hstop : l.stop = o + e.size front' ∧ k.stop = o + f.size front')
    (hrewind : (v.rewind l.stop).Recoded (SamePlace e f o source) (w.rewind k.stop)) :
    Abreast tokens e f o source front' (s.commit v.take.2 l) (s'.commit w.take.2 k) := by
  have hv := hsearched.setupAs
  have hw := hsearched'.setupAs
  have hvtokens : v.tokens = tokens := hv.tokens.trans h.tokens.1
  have hwtokens : w.tokens = tokens := hw.tokens.trans h.tokens.2
  have hcommit := tokenizer_commit h.grammar.1 hvtokens l
  have hcommit' := tokenizer_commit h.grammar.2 hwtokens k
  obtain ⟨⟨_, ht⟩, ⟨_, hu⟩⟩ := h.tokenizers.placed
  have hvplaced := hsearched.placed ht
  have hwplaced := hsearched'.placed hu
  refine ⟨h.grammar, ?_, ?_, ?_, ?_⟩ <;> rw [hcommit]
  · rw [hcommit']
    exact ⟨hvtokens, hwtokens⟩
  · exact (congrArg Mode.interleaved hv.mode).trans h.mode
  · exact fresh_rewind v _
  · rw [hcommit']
    refine ⟨hrewind.step, ⟨hv.encoding.trans h.tokenizers.encoding.1,
      hw.encoding.trans h.tokenizers.encoding.2⟩, hstop, ?_⟩
    exact ⟨⟨_, placed_rewind hvplaced.lines _ (hvplaced.origin_le_of_taken hl)⟩,
      ⟨_, placed_rewind hwplaced.lines _ (hwplaced.origin_le_of_taken hk)⟩⟩

/-- **Two scans commit the same** from one place of a text on. -/
theorem scanFrom (h : Abreast tokens e f o source front s s') (hsource : source = front ++ text) :
    Agree (fun x y => List.Forall₂ (Lexeme.Recoded (SamePlace e f o source)) x.1 y.1)
      (s.scanFrom o (source.flatMap e.encodeChar) (e.size front))
      (s'.scanFrom o (source.flatMap f.encodeChar) (f.size front)) := by
  induction hleft : (source.flatMap e.encodeChar).length - e.size front using
    Nat.strong_induction_on generalizing s s' front text with
  | h left ih =>
    have hdrop (e : Encoding) :
        (source.flatMap e.encodeChar).drop (e.size front) = text.flatMap e.encodeChar := by
      rw [hsource, e.drop_flatMap_encodeChar]
    obtain ⟨⟨_, ht⟩, ⟨_, hu⟩⟩ := h.tokenizers.placed
    obtain ⟨v, hv, hsearched⟩ := search_total ht (text.flatMap e.encodeChar)
    obtain ⟨w, hw, hsearched'⟩ := search_total hu (text.flatMap f.encodeChar)
    obtain ⟨hlexemes, hrewind⟩ := h.taken hsource hv hw hsearched
    rw [Scanner.scanFrom, Scanner.scanFrom, hdrop, hdrop, hv, hw]
    refine Agree.bind (S := fun x y => x = v.take ∧ y = w.take) (.ok ⟨rfl, rfl⟩) ?_
    rintro _ _ ⟨rfl, rfl⟩
    simp only [choose_eq_head? h.grammar.1, choose_eq_head? h.grammar.2]
    generalize hxs : v.take.1 = xs, hys : w.take.1 = ys at hlexemes
    cases hlexemes with
    | nil => exact .ok .nil
    | @cons l k _ _ hlk =>
      have hmem : l ∈ v.take.1 := by simp [hxs]
      have hmem' : k ∈ w.take.1 := by simp [hys]
      obtain ⟨front', back', hsource', hl, hk⟩ := hlk.stop
      have hnext := h.commit hsearched hsearched' hmem hmem' ⟨hl, hk⟩ (hrewind hlk.stop)
      have hbehind : l.stop - o = e.size front' := by omega
      have hbehind' : k.stop - o = f.size front' := by omega
      simp only [List.head?_cons, hbehind, hbehind']
      split
      next hforward =>
        split
        · exact (ih _ (by omega) hnext hsource' rfl).bind fun x y hxy => .ok (.cons hlk hxy)
        · exact .error_right _ _
      · exact .error_left _ _

end Abreast

end Scanner

/-- **One lexeme in two encodings**: it differs in its offsets only, and they
delimit the same characters of the source. -/
structure SameLexeme (e f : Encoding) (o : Nat) (source : List Char) (l k : Lexeme) : Prop where
  token : l.token = k.token
  text : l.text = k.text
  value : l.value = k.value
  line : l.line = k.line
  delimits : ∃ front mid back, source = front ++ mid ++ back ∧
    (l.start = o + e.size front ∧ l.stop = o + e.size (front ++ mid)) ∧
    k.start = o + f.size front ∧ k.stop = o + f.size (front ++ mid)

theorem Lexeme.Recoded.sameLexeme {e f : Encoding} {o : Nat} {source : List Char} {l k : Lexeme}
    (h : l.Recoded (SamePlace e f o source) k) : SameLexeme e f o source l k where
  token := h.token
  text := h.text
  value := h.value
  line := h.line
  delimits := by
    obtain ⟨front, back, hsource, hl, hk⟩ := h.start
    obtain ⟨front', back', hsource', hl', hk'⟩ := h.stop
    have hle := h.start_le
    rw [hl, hl', Nat.add_le_add_iff_left, e.size_le_iff (hsource.symm.trans hsource')] at hle
    obtain ⟨mid, rfl⟩ : front <+: front' :=
      List.prefix_of_prefix_length_le ⟨back, hsource.symm⟩ ⟨back', hsource'.symm⟩ hle
    exact ⟨front, mid, back', hsource', ⟨hl, hl'⟩, hk, hk'⟩

/-- **The encoding changes offsets only**: without interleaving, the scans of
a source in two encodings commit the same lexemes, each from and to the same
places in the source. -/
theorem scan_recoded (tokens : List (Token σ)) (config : TokenizerConfig)
    (reserved : Option Reserved) (policies : PolicyTable) (source : String) (e f : Encoding)
    (hmode : config.interleaved = false) :
    ∃ lexemes s lexemes' s',
      (Scanner.ofTokens tokens { config with encoding := e } reserved policies).scan source
        = .ok (lexemes, s) ∧
      (Scanner.ofTokens tokens { config with encoding := f } reserved policies).scan source
        = .ok (lexemes', s') ∧
      List.Forall₂ (SameLexeme e f config.offset source.toList) lexemes lexemes' := by
  obtain ⟨lexemes, s, hscan, -⟩ := Scanner.scanUnits_total tokens { config with encoding := e }
    reserved policies (e.units source)
  obtain ⟨lexemes', s', hscan', -⟩ := Scanner.scanUnits_total tokens { config with encoding := f }
    reserved policies (f.units source)
  refine ⟨lexemes, s, lexemes', s', hscan, hscan', ?_⟩
  rw [e.units_eq_flatMap] at hscan
  rw [f.units_eq_flatMap] at hscan'
  have hstart : Scanner.Abreast tokens e f config.offset source.toList []
      (Scanner.ofTokens tokens { config with encoding := e } reserved policies)
      (Scanner.ofTokens tokens { config with encoding := f } reserved policies) :=
    { grammar := ⟨rfl, rfl⟩
      tokens := ⟨rfl, rfl⟩
      mode := hmode
      fresh := ⟨rfl, rfl, rfl⟩
      tokenizers :=
        { recoded := ⟨rfl, rfl, rfl, rfl, ⟨rfl, .nil⟩, .none, .nil, .nil, .nil, .none⟩
          encoding := ⟨rfl, rfl⟩
          position := ⟨rfl, rfl⟩
          placed := ⟨⟨_, Scanner.placed_ofTokens ..⟩, ⟨_, Scanner.placed_ofTokens ..⟩⟩ } }
  exact (hstart.scanFrom rfl _ _ hscan hscan').imp fun _ _ h => h.sameLexeme

/-- A source with characters of one to four units, some of them ignored. -/
theorem scan_recoded_numeric : ({} : TokenizerConfig).interleaved = false ∧
    ∃ lexemes s lexemes' s',
      (Scanner.ofTokens [(Token.numeric {} 0).toToken] { encoding := .utf8 } none
          (PolicyTable.standard.set '_' (.single .ignore))).scan "é1_2\n𝄞 3" = .ok (lexemes, s) ∧
      (Scanner.ofTokens [(Token.numeric {} 0).toToken] { encoding := .utf16 } none
          (PolicyTable.standard.set '_' (.single .ignore))).scan "é1_2\n𝄞 3" = .ok (lexemes', s') ∧
      List.Forall₂ (SameLexeme .utf8 .utf16 0 "é1_2\n𝄞 3".toList) lexemes lexemes' :=
  ⟨rfl, scan_recoded [(Token.numeric {} 0).toToken] {} none _ "é1_2\n𝄞 3" .utf8 .utf16 rfl⟩

end Lexing
