import Lexing.Proofs.Tokenizer.Driven
import Lexing.Proofs.Tokenizer.Lined

/-!
# Candidates that are overtaken

A step that is broken off at a first lexeme leaves candidates behind that have
not been asked. The character is in the signature by then, which all of them
share, so whoever feeds on has candidates whose states have missed a character
of their texts. What they give in the end is not what their tokens make of
these texts: of `1.5` a literal may be left that reads as `15`.

A lexeme *overtakes* a candidate if it becomes ready while that one is under way
and is asked before it. These are the lexemes of older buckets, and in its own
bucket those of tokens registered later. No other candidate misses a character,
and none at all where a step looks for every lexeme: whatever is fed and taken,
each lexeme that becomes ready is sound unless its candidate has been overtaken
by one that became ready before (`collect_sound_unless_overtaken`).
-/

namespace Lexing

variable {σ : Type}

/-- **A lexeme that became ready at a place overtakes a candidate** of a given
rank that began at `start`. -/
structure Overtakes (p : Nat × Ready) (start rank : Nat) : Prop where
  begun : start < p.1
  ahead : ∃ i, p.2.rank = some i ∧
    (p.2.lexeme.start < start ∨ p.2.lexeme.start = start ∧ rank < i)

/-- **A candidate has been overtaken** by some of what became ready. Nothing is
overtaken where a step looks for every lexeme. -/
def Overtaken (select : Select) (past : List (Nat × Ready)) (start rank : Nat) : Prop :=
  select = .first ∧ ∃ p ∈ past, Overtakes p start rank

theorem Overtaken.mono {select : Select} {past past' : List (Nat × Ready)} {start rank : Nat}
    (h : Overtaken select past start rank) (hsub : past ⊆ past') :
    Overtaken select past' start rank := by
  obtain ⟨hselect, p, hp, hovertakes⟩ := h
  exact ⟨hselect, p, hsub hp, hovertakes⟩

/-- A lexeme is accounted for by what became ready before: it is sound, or its
candidate has been overtaken. -/
def Ready.Accounted (r : Ready) (tokens : List (Token σ)) (reserved : Option Reserved)
    (select : Select) (past : List (Nat × Ready)) : Prop :=
  r.lexeme.Sound tokens reserved ∨
    ∃ rank, r.rank = some rank ∧ Overtaken select past r.lexeme.start rank

/-- Each lexeme of a list is accounted for by those before it. -/
def AllAccounted (tokens : List (Token σ)) (reserved : Option Reserved) (select : Select) :
    List (Nat × Ready) → List (Nat × Ready) → Prop
  | _, [] => True
  | past, p :: rest =>
    p.2.Accounted tokens reserved select past ∧
      AllAccounted tokens reserved select (past ++ [p]) rest

section

variable {tokens : List (Token σ)} {reserved : Option Reserved} {select : Select}
variable {past : List (Nat × Ready)}

theorem Ready.Accounted.mono {r : Ready} (h : r.Accounted tokens reserved select past)
    {past' : List (Nat × Ready)} (hsub : past ⊆ past') :
    r.Accounted tokens reserved select past' :=
  h.imp_right fun ⟨rank, hrank, hovertaken⟩ => ⟨rank, hrank, hovertaken.mono hsub⟩

theorem allAccounted_append {given rest : List (Nat × Ready)}
    (hgiven : ∀ p ∈ given, p.2.Accounted tokens reserved select past)
    (hrest : AllAccounted tokens reserved select (past ++ given) rest) :
    AllAccounted tokens reserved select past (given ++ rest) := by
  induction given generalizing past with
  | nil =>
    rw [List.append_nil] at hrest
    exact hrest
  | cons p given ih =>
    refine ⟨hgiven p List.mem_cons_self, ih (fun q hq => ?_) ?_⟩
    · exact (hgiven q (List.mem_cons_of_mem _ hq)).mono (List.subset_append_left _ _)
    · rw [List.append_assoc]
      exact hrest

theorem AllAccounted.split {given before after : List (Nat × Ready)} {p : Nat × Ready}
    (h : AllAccounted tokens reserved select past given) (hsplit : given = before ++ p :: after) :
    p.2.Accounted tokens reserved select (past ++ before) := by
  induction before generalizing past given with
  | nil =>
    rw [hsplit] at h
    rw [List.append_nil]
    exact h.1
  | cons q before ih =>
    rw [hsplit] at h
    have hp := ih h.2 rfl
    rwa [List.append_assoc] at hp

end

namespace Tokenizer

variable {t u v : Tokenizer σ} {floor here width o : Nat} {c : Char}
variable {past : List (Nat × Ready)} {pool : List (Token σ)}

/-! ## A character -/

/-- **Candidates that are still pursued**: each is aligned with what its bucket
has seen, unless it has been overtaken. -/
structure Pursued (t : Tokenizer σ) (past : List (Nat × Ready)) : Prop where
  lined : Lined t.active
  live : ∀ b ∈ t.active, ∀ x ∈ b.live,
    x.Aligned t.tokens t.reserved (b.text t.signature) ∨
      Overtaken t.mode.select past b.start x.rank

theorem pursued_of_idle (h : t.active = []) : t.Pursued past := by
  refine ⟨h ▸ lined_nil, fun b hb => ?_⟩
  rw [h] at hb
  exact nomatch hb

theorem Pursued.mono (h : t.Pursued past) {past' : List (Nat × Ready)} (hsub : past ⊆ past') :
    t.Pursued past' :=
  ⟨h.lined, fun b hb x hx =>
    (h.live b hb x hx).imp_right fun hovertaken => hovertaken.mono hsub⟩

/-- What a candidate yields is accounted for. -/
theorem Pursued.accounted_of_mem_yield (h : t.Pursued past) (hb : t.Between floor here)
    {b : Bucket σ} (hmem : b ∈ t.active) {x : Candidate σ} (hx : x ∈ b.live) {stop : Nat}
    {r : Ready} (hr : r ∈ b.yield t.signature stop x) :
    r.Accounted t.tokens t.reserved t.mode.select past := by
  obtain ⟨hstart, hrank⟩ := Bucket.of_mem_yield hr
  obtain halign | hovertaken := h.live b hmem x hx
  · exact .inl ((hb.fits b hmem).sound_of_mem_yield hx halign hr)
  · exact .inr ⟨x.rank, hrank, hstart ▸ hovertaken⟩

theorem Pursued.congr (h : t.Pursued past) (hactive : u.active = t.active)
    (hsignature : u.signature = t.signature) (htokens : u.tokens = t.tokens)
    (hreserved : u.reserved = t.reserved) (hmode : u.mode = t.mode) : u.Pursued past := by
  refine ⟨hactive ▸ h.lined, fun b hb => ?_⟩
  rw [hsignature, htokens, hreserved, hmode]
  exact h.live b (hactive ▸ hb)

/-- **Offering a character** keeps candidates pursued, once the lexemes that it
makes ready are counted among those before. -/
theorem Pursued.offered (h : t.Pursued past) (hb : t.Between floor here)
    {terminate : Bool} {st : Stepped (Bucket σ)}
    (hst : BucketStep t.signature here c terminate (decide (t.mode.select = .first)) t.active st) :
    (t.offered here c st).Pursued (past ++ st.ready.map (here, ·)) := by
  refine ⟨(hst.lined h.lined).sublist List.filter_sublist, fun b' hb' y hy => ?_⟩
  obtain ⟨b, hmem, live, rfl, hlive⟩ :=
    hst.kept_or_passed_over h.lined (List.mem_of_mem_filter hb')
  have hbegun : b.start < here := hb.start_lt hmem
  obtain ⟨x, hx, hxy⟩ | ⟨hfirst, -, r, hr, i, hrank, hahead⟩ := hlive y hy
  -- it has taken the character, like its token, or had been overtaken already
  · obtain halign | hovertaken := h.live b hmem x hx
    · have htext : b.text (t.signature ++ [(c, here)]) = b.text t.signature ++ [c] :=
        Bucket.text_append (Nat.le_of_lt (hb.fits b hmem).key_lt) _
      refine .inl ?_
      show y.Aligned t.tokens t.reserved (b.text (t.signature ++ [(c, here)]))
      rw [htext]
      exact halign.offered hxy
    · rw [Candidate.rank_offered hxy]
      exact .inr (hovertaken.mono (List.subset_append_left _ _))
  -- it was not asked, so the lexeme at which the step was broken off overtakes it
  · exact .inr ⟨of_decide_eq_true hfirst, (here, r),
      List.mem_append_right _ (List.mem_map_of_mem hr), hbegun, i, hrank, hahead⟩

/-- Candidates that begin are aligned with the character. -/
theorem Pursued.begun (h : u.Pursued past) {front : Signature}
    (hs : u.signature = front ++ [(c, here)]) (hlined : Lined (u.begun here c).active) :
    (u.begun here c).Pursued past := by
  refine ⟨hlined, fun b hb x hx => ?_⟩
  obtain hb | hb := List.mem_append.1 hb
  · exact h.live b hb x hx
  · rw [List.mem_singleton.1 hb] at hx ⊢
    refine .inl ?_
    show x.Aligned u.tokens u.reserved (Bucket.text _ u.signature)
    rw [Bucket.text_beginning hs]
    exact aligned_beginning hx

/-- **What a character makes ready is accounted for**, and the candidates that
it leaves are pursued. -/
theorem Treated.pursued {r : Bool} (htreated : Treated t here width c r u) (h : t.Pursued past)
    (hb : t.Between floor here) :
    ∃ given, u.results = t.results ++ given ∧
      (∀ q ∈ given, q.Accounted t.tokens t.reserved t.mode.select past) ∧
      u.Pursued (past ++ given.map (here, ·)) := by
  have hlined := htreated.lined h.lined hb
  have hsame (given : List Ready) : t.Pursued (past ++ given.map (here, ·)) :=
    h.mono (List.subset_append_left _ _)
  have hnone (q : Ready) (htoken : q.lexeme.token = none) (hvalue : q.lexeme.value = none) :
      ∀ q' ∈ [q], q'.Accounted t.tokens t.reserved t.mode.select past := by
    intro q' hq'
    rw [List.mem_singleton.1 hq']
    exact .inl (Lexeme.sound_of_none htoken hvalue)
  cases htreated with
  | trimmed | ignored =>
    exact ⟨[], (List.append_nil _).symm, fun _ hq => (nomatch hq), hsame []⟩
  | interrupted _ _ run =>
    exact ⟨[run.ready], rfl, hnone _ rfl rfl, (hsame _).congr rfl rfl rfl rfl rfl⟩
  | disallowed =>
    exact ⟨[t.alone here width c], rfl, hnone _ rfl rfl, (hsame _).congr rfl rfl rfl rfl rfl⟩
  | consumed _ _ st hst _ _ hout =>
    have hoffered := h.offered hb hst
    have hready : ∀ q ∈ st.ready, q.Accounted t.tokens t.reserved t.mode.select past := by
      intro q hq
      obtain ⟨b, hmem, x, hx, -, hq⟩ := hst.ready_from hq
      exact h.accounted_of_mem_yield hb hmem hx hq
    -- one more lexeme behind them, of no token, overtakes nobody
    have hmore (q : Ready) :
        (t.offered here c st).Pursued (past ++ (st.ready ++ [q]).map (here, ·)) := by
      refine hoffered.mono ?_
      rw [List.map_append, ← List.append_assoc]
      exact List.subset_append_left _ _
    cases hout with
    | ready | waiting => exact ⟨st.ready, rfl, hready, hoffered⟩
    | unmatched => exact ⟨st.ready, rfl, hready, hoffered.congr rfl rfl rfl rfl rfl⟩
    | wasted =>
      exact ⟨st.ready ++ [_], List.append_assoc _ _ _,
        List.forall_mem_append.2 ⟨hready, hnone _ rfl rfl⟩, (hmore _).congr rfl rfl rfl rfl rfl⟩
    | interrupted =>
      exact ⟨st.ready ++ [_], List.append_assoc _ _ _,
        List.forall_mem_append.2 ⟨hready, hnone _ rfl rfl⟩, (hmore _).congr rfl rfl rfl rfl rfl⟩
    | begun => exact ⟨st.ready, rfl, hready, hoffered.begun rfl hlined⟩

/-! ## A run -/

theorem Fed.pursued {unit : UInt32} {r : Bool} (hfed : Fed t unit r v) (h : t.Pursued past)
    (hp : t.Placed floor) :
    ∃ given, v.results = t.results ++ given ∧
      (∀ q ∈ given, q.Accounted t.tokens t.reserved t.mode.select past) ∧
      v.Pursued (past ++ given.map (t.position, ·)) := by
  have htracked (lines : LineTable) (run : Option Nat) : (t.tracked lines run).Pursued past := by
    refine ⟨h.lined, fun b hb => ?_⟩
    have hb : b ∈ t.active := hb
    rw [signature_tracked_of_mem lines run hb]
    exact h.live b hb
  cases hfed with
  | passed =>
    refine ⟨[], (List.append_nil _).symm, fun _ hq => (nomatch hq), ?_⟩
    exact (htracked t.lines t.newlineRun).mono (List.subset_append_left _ _)
  | led _ lines run _ _ _ htreated =>
    exact htreated.pursued (htracked lines run) (hp.held.tracked lines run)

/-- **Carry out commands**, and list each lexeme that becomes ready on the way
behind the place of the unit that made it so. -/
def collect (t : Tokenizer σ) : List (Command σ) → Except Fault (List (Nat × Ready) × Tokenizer σ)
  | [] => .ok ([], t)
  | command :: rest => do
    let (_, u) ← t.obey command
    let (later, v) ← u.collect rest
    return ((u.results.drop t.results.length).map (t.position, ·) ++ later, v)

/-- One command of a caller who only feeds units and takes lexemes. -/
theorem Obeyed.pursued {command : Command σ} (h : Obeyed t command u)
    (hplain : command = .take ∨ ∃ unit, command = .feed unit) (ht : t.Pursued past)
    (hp : t.Placed floor) :
    ∃ given, u.results.drop t.results.length = given ∧ u.results ⊆ t.results ++ given ∧
      (∀ q ∈ given, q.Accounted t.tokens t.reserved t.mode.select past) ∧
      u.Pursued (past ++ given.map (t.position, ·)) ∧ u.SetupAs t := by
  cases h with
  | feed hfed =>
    obtain ⟨given, hresults, hgiven, hu⟩ := hfed.pursued ht hp
    refine ⟨given, ?_, ?_, hgiven, hu, hfed.setupAs⟩
    · rw [hresults, List.drop_left]
    · rw [hresults]
      exact List.Subset.refl _
  | take =>
    refine ⟨[], List.drop_nil, List.nil_subset _, fun _ hq => (nomatch hq), ?_, ?_⟩
    · exact (ht.mono (List.subset_append_left _ _)).congr rfl rfl rfl rfl rfl
    · exact ⟨rfl, rfl, rfl, rfl, rfl⟩
  | _ => simp at hplain

/-- What such a caller is given are the lexemes that wait. -/
theorem waiting_of_taken {command : Command σ} {taken : List Lexeme} (hp : t.Placed floor)
    (hplain : command = .take ∨ ∃ unit, command = .feed unit)
    (hobey : t.obey command = .ok (.lexemes taken, u)) {l : Lexeme} (hl : l ∈ taken) :
    ∃ r ∈ t.results, r.lexeme = l := by
  obtain rfl | ⟨unit, rfl⟩ := hplain
  · obtain rfl := Answer.lexemes.inj (Prod.mk.inj (Except.ok.inj hobey)).1
    exact mem_take.1 hl
  · obtain ⟨now, v, hfeed, -⟩ := feed_total hp unit
    rw [obey, hfeed] at hobey
    exact absurd (Prod.mk.inj (Except.ok.inj hobey)).1 (by simp)

/-- **A run of feeding and taking**: what becomes ready is accounted for, and
what is taken has become ready. -/
theorem Pursued.collect {commands : List (Command σ)} (h : t.Pursued past)
    (ht : t.Drivable o pool) (hheld : ∀ r ∈ t.results, ∃ p ∈ past, p.2 = r)
    (hplain : ∀ command ∈ commands, command = .take ∨ ∃ unit, command = .feed unit) :
    ∃ answers given u, t.drive commands = .ok (answers, u) ∧
      t.collect commands = .ok (given, u) ∧
      AllAccounted t.tokens t.reserved t.mode.select past given ∧
      ∀ taken, .lexemes taken ∈ answers → ∀ l ∈ taken, ∃ p ∈ past ++ given, p.2.lexeme = l := by
  induction commands generalizing t past with
  | nil => exact ⟨[], [], t, rfl, rfl, trivial, by simp⟩
  | cons command rest ih =>
    obtain ⟨hfirst, hrest⟩ := List.forall_mem_cons.1 hplain
    obtain ⟨answer, u, hobey, hu, -⟩ := obey_total ht command
      (by rintro place rfl; simp at hfirst)
      (by obtain rfl | ⟨unit, rfl⟩ := hfirst <;> simp [Command.tokens])
    obtain ⟨floor, hp⟩ := ht.placed
    obtain ⟨given, hdrop, hsub, hgiven, hpursued, hsetup⟩ :=
      (obeyed_of_obey hp hobey).pursued hfirst h hp
    have hcounted (r : Ready) (hr : r ∈ u.results) :
        ∃ p ∈ past ++ given.map (t.position, ·), p.2 = r := by
      obtain hr | hr := List.mem_append.1 (hsub hr)
      · obtain ⟨p, hmem, rfl⟩ := hheld r hr
        exact ⟨p, List.mem_append_left _ hmem, rfl⟩
      · exact ⟨(t.position, r), List.mem_append_right _ (List.mem_map_of_mem hr), rfl⟩
    obtain ⟨answers, later, v, hdrive, hcollect, hlater, htaken⟩ := ih hpursued hu hcounted hrest
    refine ⟨answer :: answers, given.map (t.position, ·) ++ later, v, ?_, ?_, ?_, ?_⟩
    · simp only [drive, hobey, hdrive, bind, Except.bind]
      rfl
    · simp only [Tokenizer.collect, hobey, hcollect, hdrop, bind, Except.bind]
      rfl
    · rw [hsetup.tokens, hsetup.reserved, hsetup.mode] at hlater
      refine allAccounted_append (fun p hp => ?_) hlater
      obtain ⟨q, hq, rfl⟩ := List.mem_map.1 hp
      exact hgiven q hq
    · intro taken hmem l hl
      rw [← List.append_assoc]
      obtain rfl | hmem := List.mem_cons.1 hmem
      · obtain ⟨r, hr, rfl⟩ := waiting_of_taken hp hfirst hobey hl
        obtain ⟨p, hmem, rfl⟩ := hheld r hr
        exact ⟨p, List.mem_append_left _ (List.mem_append_left _ hmem), rfl⟩
      · exact htaken taken hmem l hl

/-- **Only candidates that are overtaken go astray.** Whoever feeds units and
takes lexemes, in any order and without ever moving the tokenizer back, meets no
fault. What is taken has become ready before, and each lexeme that becomes ready
is sound, that is, its token accepts the text character by character from a fresh
state and decodes the value from exactly that text, unless the tokenizer looks for
the first lexeme only and one that became ready before has overtaken its
candidate. -/
theorem collect_sound_unless_overtaken (tokens : List (Token σ)) (config : TokenizerConfig)
    (reserved : Option Reserved) (policies : PolicyTable) {commands : List (Command σ)}
    (hplain : ∀ command ∈ commands, command = .take ∨ ∃ unit, command = .feed unit) :
    ∃ answers given t,
      { new tokens config with reserved, policies }.drive commands = .ok (answers, t) ∧
      { new tokens config with reserved, policies }.collect commands = .ok (given, t) ∧
      (∀ taken, .lexemes taken ∈ answers → ∀ l ∈ taken, ∃ p ∈ given, p.2.lexeme = l) ∧
      ∀ before p after, given = before ++ p :: after →
        p.2.lexeme.Sound tokens reserved ∨
          ∃ rank, p.2.rank = some rank ∧
            Overtaken config.select before p.2.lexeme.start rank := by
  have hnew : (new tokens config).Drivable config.offset tokens :=
    drivable_new tokens config fun _ h => h
  have hstart : { new tokens config with reserved, policies }.Drivable config.offset tokens :=
    hnew.withSetup (fun _ h => h) reserved config.mode config.encoding policies
  have hidle : { new tokens config with reserved, policies }.Pursued [] := pursued_of_idle rfl
  obtain ⟨answers, given, t, hdrive, hcollect, haccounted, htaken⟩ :=
    hidle.collect hstart (fun _ hr => nomatch hr) hplain
  exact ⟨answers, given, t, hdrive, hcollect, htaken,
    fun before p after hsplit => haccounted.split hsplit⟩

/-- Two kinds of literals, the second of which is written with a comma. -/
def pointOrComma : List (Token Numeric.Progress) :=
  [(Token.numeric {} 0).toToken, (Token.numeric { fraction := ',' } 1).toToken]

theorem collect_sound_unless_overtaken_pointOrComma :
    (∀ command ∈ ([.feed 0x31, .feed 0x2e, .take, .feed 0x35, .feed 0x3b, .take] :
        List (Command Numeric.Progress)), command = .take ∨ ∃ unit, command = .feed unit) ∧
    ∃ answers given t,
      { new pointOrComma { select := .first } with
        reserved := none, policies := .passAll }.drive
          [.feed 0x31, .feed 0x2e, .take, .feed 0x35, .feed 0x3b, .take] = .ok (answers, t) ∧
      { new pointOrComma { select := .first } with
        reserved := none, policies := .passAll }.collect
          [.feed 0x31, .feed 0x2e, .take, .feed 0x35, .feed 0x3b, .take] = .ok (given, t) ∧
      (∀ taken, .lexemes taken ∈ answers → ∀ l ∈ taken, ∃ p ∈ given, p.2.lexeme = l) ∧
      ∀ before p after, given = before ++ p :: after →
        p.2.lexeme.Sound pointOrComma none ∨
          ∃ rank, p.2.rank = some rank ∧ Overtaken .first before p.2.lexeme.start rank :=
  ⟨by simp, collect_sound_unless_overtaken _ _ _ _ (by simp)⟩

/-- A point ends what is written with a comma, and the step is broken off before
the other literal has seen it. That one is active still, goes on with `5`, and
gives the text `1.5` the value 15. -/
theorem drive_pointOrComma : ∃ answers t later u r,
    (new pointOrComma { select := .first }).drive [.feed 0x31, .feed 0x2e, .take]
        = .ok (answers, t)
      ∧ t.hasActive = true ∧ t.drive [.feed 0x35, .feed 0x3b] = .ok (later, u)
      ∧ later = [.ready false, .ready true] ∧ u.results = [r]
      ∧ r.lexeme.token = some ⟨0, "numeric"⟩ ∧ r.lexeme.text = ['1', '.', '5']
      ∧ r.lexeme.value = some (.i8 15) :=
  ⟨_, _, _, _, _, rfl, rfl, rfl, rfl, rfl, rfl, rfl, rfl⟩

/-- **What an early stop leaves behind need not be usable**, though it is active
still. -/
theorem not_forall_sound_after_stop :
    ¬ ∀ (tokens : List (Token Numeric.Progress)) (config : TokenizerConfig)
        (commands more : List (Command Numeric.Progress)) (answers later : List Answer)
        (t u : Tokenizer Numeric.Progress),
      config.select = .first →
        (∀ command ∈ commands ++ more, command = .take ∨ ∃ unit, command = .feed unit) →
        (new tokens config).drive commands = .ok (answers, t) → t.hasActive = true →
        t.drive more = .ok (later, u) →
        ∀ r ∈ u.results, r.lexeme.isRecognized = true → r.lexeme.Sound tokens none := by
  intro hall
  obtain ⟨answers, t, later, u, r, hdrive, hactive, hmore, -, hresults, htoken, htext, hvalue⟩ :=
    drive_pointOrComma
  have hrecognized : r.lexeme.isRecognized = true := by
    unfold Lexeme.isRecognized
    rw [htoken]
    rfl
  have hsound := hall _ _ _ _ _ _ t u rfl (by simp) hdrive hactive hmore r
    (by rw [hresults]; exact List.mem_singleton.2 rfl) hrecognized
  obtain ⟨token, hmem, htag, st, hrun, -, hdecoded⟩ := hsound.recognized hrecognized
  rw [htext] at hrun hdecoded
  rw [htoken] at htag
  rw [hvalue] at hdecoded
  obtain rfl | rfl := List.mem_pair.1 hmem
  -- the literal with a point reads the same text as a fraction
  · obtain rfl := Option.some.inj hrun
    have hkind := congrArg (Option.map Value.kind) hdecoded
    exact absurd hkind (by decide)
  · exact absurd htag (by decide)

end Tokenizer

end Lexing
