import Mathlib.Data.List.Induction
import Lexing.Proofs.Tokenizer.Aligned
import Lexing.Proofs.Tokenizer.Feed
import Lexing.Proofs.Tokenizer.Origin
import Lexing.Proofs.Tokenizer.Taken
import Lexing.Token.Numeric

/-!
# Driving a tokenizer

A caller may feed units of any kind, end the stream, take lexemes, move to a
place and change the setup, in any order and as often as it likes. Whatever it
does, a tokenizer stays in order above some floor, so it meets no fault as long
as it is never moved to a place before its start (`drive_meets_no_fault`). What
it gives is never empty, and is decoded from a text that its token holds valid.
-/

namespace Lexing

variable {σ : Type}

/-- What a caller may ask of a tokenizer. -/
inductive Command (σ : Type) where
  | feed (unit : UInt32)
  | finish
  | take
  | rewind (place : Nat)
  | setTokens (tokens : List (Token σ))
  | setReserved (reserved : Option Reserved)
  | setMode (mode : Mode)
  | setEncoding (encoding : Encoding)
  | setPolicies (policies : PolicyTable)

/-- What a tokenizer answers. -/
inductive Answer where
  | done
  | ready (now : Bool)
  | lexemes (taken : List Lexeme)

/-- The tokens that a command brings. -/
def Command.tokens : Command σ → List (Token σ)
  | setTokens tokens => tokens
  | _ => []

namespace Tokenizer

/-- Carry out one command. -/
def obey (t : Tokenizer σ) : Command σ → Except Fault (Answer × Tokenizer σ)
  | .feed unit => (t.feed unit).map fun (now, t) => (.ready now, t)
  | .finish => t.finish.map fun (now, t) => (.ready now, t)
  | .take => .ok (.lexemes t.take.1, t.take.2)
  | .rewind place => .ok (.done, t.rewind place)
  | .setTokens tokens => .ok (.done, { t with tokens })
  | .setReserved reserved => .ok (.done, { t with reserved })
  | .setMode mode => .ok (.done, { t with mode })
  | .setEncoding encoding => .ok (.done, { t with encoding })
  | .setPolicies policies => .ok (.done, { t with policies })

/-- **Carry out commands**, one after the other, and collect the answers. -/
def drive (t : Tokenizer σ) : List (Command σ) → Except Fault (List Answer × Tokenizer σ)
  | [] => .ok ([], t)
  | command :: rest => do
    let (answer, t) ← t.obey command
    let (answers, t) ← t.drive rest
    return (answer :: answers, t)

end Tokenizer

/-- **A lexeme that is well made**: it is not empty, and if a token made it,
that one is at hand and has decoded a text that it holds valid. -/
structure Lexeme.WellMade (l : Lexeme) (pool : List (Token σ)) : Prop where
  nonempty : l.start < l.stop
  decoded : ∀ tag, l.token = some tag → ∃ token ∈ pool, token.tag = tag ∧
    ∃ st, token.isValid st l.text = true ∧ l.value = token.decode st l.text

theorem Lexeme.WellMade.of_none {l : Lexeme} {pool : List (Token σ)} (hne : l.start < l.stop)
    (hnone : l.token = none) : l.WellMade pool :=
  ⟨hne, fun _ htag => nomatch hnone.symm.trans htag⟩

/-- The lexemes of an answer are well made. -/
def Answer.WellMade (answer : Answer) (pool : List (Token σ)) : Prop :=
  ∀ taken, answer = .lexemes taken → ∀ l ∈ taken, l.WellMade pool

/-- What a candidate yields is well made. -/
theorem Bucket.Fits.wellMade_of_mem_yield {b : Bucket σ} {s : Signature} {x : Candidate σ}
    {floor stop : Nat} {pool : List (Token σ)} (h : b.Fits s) (hw : s.Within floor stop)
    (hx : x ∈ b.live) (htoken : x.token ∈ pool) {r : Ready} (hr : r ∈ b.yield s stop x) :
    r.lexeme.WellMade pool := by
  have habove := h.above_of_mem_yield hw hx hr
  obtain ⟨n, st, hs, rfl⟩ := mem_yield.1 hr
  refine ⟨habove.nonempty, fun tag htag => ⟨x.token, htoken, Option.some.inj htag, st, ?_, rfl⟩⟩
  exact (h.settled hx hs).2.2

namespace Tokenizer

variable {t u v : Tokenizer σ} {floor here width o : Nat} {c : Char} {pool : List (Token σ)}

/-- The tokens of a tokenizer and of its candidates come from a pool, and what
waits is well made. -/
structure Supplied (t : Tokenizer σ) (pool : List (Token σ)) : Prop where
  tokens : ∀ token ∈ t.tokens, token ∈ pool
  live : ∀ b ∈ t.active, ∀ x ∈ b.live, x.token ∈ pool
  results : ∀ r ∈ t.results, r.lexeme.WellMade pool

theorem token_mem_of_beginning {x : Candidate σ} (hx : x ∈ t.beginning c) : x.token ∈ t.tokens :=
  (aligned_beginning hx).mem

theorem Treated.supplied {r : Bool} (h : Treated t here width c r u) (hs : t.Supplied pool)
    (hb : t.Between floor here) (hwidth : 0 < width) : u.Supplied pool where
  tokens := by
    rw [h.setupAs.tokens]
    exact hs.tokens
  live b hmem y hy := by
    obtain ⟨a, ha, live, rfl, hlive⟩ | rfl := h.bucket_from hmem
    · obtain ⟨x, hx, hxy⟩ := hlive y hy
      rw [hxy]
      exact hs.live a ha x hx
    · exact hs.tokens _ (token_mem_of_beginning hy)
  results q hq := by
    cases h.given hq with
    | waiting hq => exact hs.results q hq
    | yielded b hmem x hx hq =>
      exact (hb.fits b hmem).wellMade_of_mem_yield hb.within hx (hs.live b hmem x hx) hq
    | alone => exact .of_none (Nat.lt_add_of_pos_right hwidth) rfl
    | run run hrun => exact .of_none (hb.run run hrun).nonempty rfl
    | wasted hlength =>
      exact .of_none (hb.within.boundary_lt_stop hlength) rfl

theorem Supplied.step (h : t.Supplied pool) : t.step.Supplied pool := ⟨h.tokens, h.live, h.results⟩

theorem Fed.supplied {unit : UInt32} {r : Bool} (hfed : Fed t unit r v) (hs : t.Supplied pool)
    (hp : t.Placed floor) : v.Supplied pool := by
  cases hfed with
  | passed => exact hs.step
  | led hunit lines run _ _ _ htreated =>
    have htracked : (t.tracked lines run).Supplied pool := ⟨hs.tokens, hs.live, hs.results⟩
    exact htreated.supplied htracked (hp.held.tracked lines run) (Nat.pos_of_ne_zero hunit)

theorem supplied_finished (hs : t.Supplied pool) (hp : t.Placed floor) :
    t.finished.Supplied pool where
  tokens := by
    rw [(setupAs_finished t).tokens]
    exact hs.tokens
  live b hb := by
    rw [active_finished] at hb
    exact nomatch hb
  results q hq := by
    have hne := (hp.finished.held.results q hq).nonempty
    obtain hq | ⟨b, hb, x, hx, hq⟩ | ⟨-, rfl⟩ | ⟨run, -, rfl⟩ := mem_finished hq
    · exact hs.results q hq
    · exact (hp.held.fits b hb).wellMade_of_mem_yield hp.held.within hx (hs.live b hb x hx) hq
    · exact .of_none hne rfl
    · exact .of_none hne rfl

/-! ## Where the lines start -/

/-- Noting a character leaves the lines as they are, or finds one more. -/
theorem lines_of_trackLines {lines : LineTable} {run : Option Nat}
    (h : t.step.trackLines here c = .ok (t.tracked lines run)) :
    lines = t.lines ∨ t.lines.push? here = some lines := by
  have hlines (w : Tokenizer σ) (hw : Except.ok w = (.ok (t.tracked lines run) : Except Fault _)) :
      w.lines = lines := congrArg Tokenizer.lines (Except.ok.inj hw)
  rw [trackLines] at h
  split at h
  · exact .inl (hlines _ h).symm
  split at h
  · exact .inl (hlines _ h).symm
  split at h
  next pushed hpush => exact .inr (hpush.trans (congrArg some (hlines _ h)))
  next => cases h

theorem origin_of_trackLines {lines : LineTable} {run : Option Nat}
    (h : t.step.trackLines here c = .ok (t.tracked lines run)) :
    lines.origin = t.lines.origin := by
  obtain rfl | hpush := lines_of_trackLines h
  · rfl
  · exact LineTable.origin_push? hpush

theorem Fed.origin_eq {unit : UInt32} {r : Bool} (hfed : Fed t unit r v) :
    v.lines.origin = t.lines.origin := by
  cases hfed with
  | passed => rfl
  | led _ lines run hlines _ _ htreated =>
    rw [htreated.frame.2.1]
    exact origin_of_trackLines hlines

/-! ## One command, and many -/

/-- **A tokenizer that may be driven on**: it is in order above some floor, its
lines start where they always have, and it is supplied from a pool. -/
structure Drivable (t : Tokenizer σ) (o : Nat) (pool : List (Token σ)) : Prop where
  placed : ∃ floor, t.Placed floor
  origin_eq : t.lines.origin = o
  supplied : t.Supplied pool

/-- The setup of a tokenizer may be changed at any time. -/
theorem Drivable.withSetup (h : t.Drivable o pool) {tokens : List (Token σ)}
    (htokens : ∀ token ∈ tokens, token ∈ pool) (reserved : Option Reserved) (mode : Mode)
    (encoding : Encoding) (policies : PolicyTable) :
    { t with tokens, reserved, mode, encoding, policies }.Drivable o pool := by
  obtain ⟨⟨floor, hp⟩, horigin, hs⟩ := h
  refine ⟨⟨floor, hp.floor_le, ?_, ?_⟩, horigin, htokens, hs.live, hs.results⟩
  · exact ⟨hp.lines.ordered, hp.lines.origin_le, hp.lines.lastStart_le, hp.lines.newlineRun⟩
  · exact ⟨hp.held.within, hp.held.fits, hp.held.run, hp.held.run_lt, hp.held.results⟩

theorem Drivable.take (h : t.Drivable o pool) : t.take.2.Drivable o pool := by
  obtain ⟨⟨floor, hp⟩, horigin, hs⟩ := h
  refine ⟨⟨floor, hp.floor_le, ?_, ?_⟩, horigin, hs.tokens, hs.live, fun r hr => nomatch hr⟩
  · exact ⟨hp.lines.ordered, hp.lines.origin_le, hp.lines.lastStart_le, hp.lines.newlineRun⟩
  · exact ⟨hp.held.within, hp.held.fits, hp.held.run, hp.held.run_lt, fun r hr => nomatch hr⟩

theorem Drivable.rewind (h : t.Drivable o pool) {place : Nat} (hplace : o ≤ place) :
    (t.rewind place).Drivable o pool := by
  obtain ⟨⟨floor, hp⟩, horigin, hs⟩ := h
  exact ⟨⟨place, placed_rewind hp.lines place (by omega)⟩, horigin, hs.tokens,
    fun b hb => (nomatch hb), fun r hr => (nomatch hr)⟩

theorem Drivable.feed (h : t.Drivable o pool) {unit : UInt32} {r : Bool} (hfed : Fed t unit r v) :
    v.Drivable o pool := by
  obtain ⟨⟨floor, hp⟩, horigin, hs⟩ := h
  exact ⟨⟨floor, hfed.placed hp⟩, hfed.origin_eq.trans horigin, hfed.supplied hs hp⟩

theorem Drivable.finish (h : t.Drivable o pool) : t.finished.Drivable o pool := by
  obtain ⟨⟨floor, hp⟩, horigin, hs⟩ := h
  refine ⟨⟨floor, hp.finished⟩, ?_, supplied_finished hs hp⟩
  rw [(frame_finished t).2.1]
  exact horigin

/-- **One command meets no fault**, and leaves a tokenizer that may be driven
on. -/
theorem obey_total (h : t.Drivable o pool) (command : Command σ)
    (hrewind : ∀ place, command = .rewind place → o ≤ place)
    (htokens : ∀ token ∈ command.tokens, token ∈ pool) :
    ∃ answer u, t.obey command = .ok (answer, u) ∧ u.Drivable o pool ∧ answer.WellMade pool := by
  obtain ⟨⟨floor, hp⟩, -, hs⟩ := id h
  cases command with
  | feed unit =>
    obtain ⟨r, v, hfeed, hfed⟩ := feed_total hp unit
    exact ⟨.ready r, v, by rw [obey, hfeed]; rfl, h.feed hfed, fun _ h => nomatch h⟩
  | finish =>
    exact ⟨.ready (!t.finished.results.isEmpty), t.finished, by rw [obey, finish_eq hp]; rfl,
      h.finish, fun _ h => nomatch h⟩
  | take =>
    refine ⟨.lexemes t.take.1, t.take.2, rfl, h.take, fun taken htaken l hl => ?_⟩
    obtain rfl := Answer.lexemes.inj htaken
    obtain ⟨r, hr, rfl⟩ := mem_take.1 hl
    exact hs.results r hr
  | rewind place => exact ⟨.done, _, rfl, h.rewind (hrewind place rfl), fun _ h => nomatch h⟩
  | setTokens tokens =>
    exact ⟨.done, _, rfl, h.withSetup htokens _ _ _ _, fun _ h => nomatch h⟩
  | setReserved reserved =>
    exact ⟨.done, _, rfl, h.withSetup hs.tokens reserved _ _ _, fun _ h => nomatch h⟩
  | setMode mode => exact ⟨.done, _, rfl, h.withSetup hs.tokens _ mode _ _, fun _ h => nomatch h⟩
  | setEncoding encoding =>
    exact ⟨.done, _, rfl, h.withSetup hs.tokens _ _ encoding _, fun _ h => nomatch h⟩
  | setPolicies policies =>
    exact ⟨.done, _, rfl, h.withSetup hs.tokens _ _ _ policies, fun _ h => nomatch h⟩

theorem drive_total (h : t.Drivable o pool) (commands : List (Command σ))
    (hrewind : ∀ place, .rewind place ∈ commands → o ≤ place)
    (htokens : ∀ command ∈ commands, ∀ token ∈ command.tokens, token ∈ pool) :
    ∃ answers u, t.drive commands = .ok (answers, u) ∧ u.Drivable o pool ∧
      ∀ answer ∈ answers, answer.WellMade pool := by
  induction commands generalizing t with
  | nil => exact ⟨[], t, rfl, h, by simp⟩
  | cons command rest ih =>
    obtain ⟨hfirst, hrest⟩ := List.forall_mem_cons.1 htokens
    obtain ⟨answer, u, hobey, hu, hanswer⟩ := obey_total h command
      (fun place hplace => hrewind place (by simp [hplace])) hfirst
    obtain ⟨answers, v, hdrive, hv, hanswers⟩ :=
      ih hu (fun place hplace => hrewind place (List.mem_cons_of_mem _ hplace)) hrest
    refine ⟨answer :: answers, v, ?_, hv, List.forall_mem_cons.2 ⟨hanswer, hanswers⟩⟩
    simp only [drive, hobey, hdrive, bind, Except.bind]
    rfl

/-- **What one command comes to.** -/
inductive Obeyed (t : Tokenizer σ) : Command σ → Tokenizer σ → Prop
  | feed {unit : UInt32} {r : Bool} {v : Tokenizer σ} (hfed : Fed t unit r v) :
    Obeyed t (.feed unit) v
  | finish : Obeyed t .finish t.finished
  | take : Obeyed t .take t.take.2
  | rewind (place : Nat) : Obeyed t (.rewind place) (t.rewind place)
  | setTokens (tokens : List (Token σ)) : Obeyed t (.setTokens tokens) { t with tokens }
  | setReserved (reserved : Option Reserved) :
    Obeyed t (.setReserved reserved) { t with reserved }
  | setMode (mode : Mode) : Obeyed t (.setMode mode) { t with mode }
  | setEncoding (encoding : Encoding) : Obeyed t (.setEncoding encoding) { t with encoding }
  | setPolicies (policies : PolicyTable) : Obeyed t (.setPolicies policies) { t with policies }

theorem obeyed_of_obey (h : t.Placed floor) {command : Command σ} {answer : Answer}
    (hobey : t.obey command = .ok (answer, u)) : Obeyed t command u := by
  cases command with
  | feed unit =>
    obtain ⟨r, v, hfeed, hfed⟩ := feed_total h unit
    rw [obey, hfeed] at hobey
    obtain ⟨-, rfl⟩ := Prod.mk.inj (Except.ok.inj hobey)
    exact .feed hfed
  | finish =>
    rw [obey, finish_eq h] at hobey
    obtain ⟨-, rfl⟩ := Prod.mk.inj (Except.ok.inj hobey)
    exact .finish
  | _ =>
    obtain ⟨-, rfl⟩ := Prod.mk.inj (Except.ok.inj hobey)
    constructor

/-- **What every command keeps, every list of commands keeps.** -/
theorem drive_induction {P : Tokenizer σ → Prop} {commands : List (Command σ)}
    (hstep : ∀ t, P t → ∀ command ∈ commands, ∀ answer u,
      t.obey command = .ok (answer, u) → P u) (ht : P t) {answers : List Answer}
    (hdrive : t.drive commands = .ok (answers, u)) : P u := by
  induction commands generalizing t answers with
  | nil =>
    obtain ⟨-, rfl⟩ := Prod.mk.inj (Except.ok.inj hdrive)
    exact ht
  | cons command rest ih =>
    obtain ⟨p, hobey, h⟩ := exists_of_bind_eq_ok hdrive
    obtain ⟨q, hrest, h⟩ := exists_of_bind_eq_ok h
    obtain ⟨-, rfl⟩ := Prod.mk.inj (Except.ok.inj h)
    exact ih (fun t ht command hmem => hstep t ht command (List.mem_cons_of_mem _ hmem))
      (hstep t ht command List.mem_cons_self p.1 p.2 hobey) hrest

/-- The last command comes behind the others. -/
theorem exists_of_drive_snoc {commands : List (Command σ)} {command : Command σ}
    {answers : List Answer} (h : t.drive (commands ++ [command]) = .ok (answers, v)) :
    ∃ given u answer, t.drive commands = .ok (given, u) ∧ u.obey command = .ok (answer, v) := by
  induction commands generalizing t answers with
  | nil =>
    obtain ⟨⟨answer, w⟩, hobey, h⟩ := exists_of_bind_eq_ok h
    obtain ⟨-, rfl⟩ := Prod.mk.inj (Except.ok.inj h)
    exact ⟨[], t, answer, rfl, hobey⟩
  | cons first rest ih =>
    obtain ⟨⟨answer, w⟩, hfirst, h⟩ := exists_of_bind_eq_ok h
    obtain ⟨⟨later, w'⟩, hrest, h⟩ := exists_of_bind_eq_ok h
    obtain ⟨-, rfl⟩ := Prod.mk.inj (Except.ok.inj h)
    obtain ⟨given, u, last, hdrive, hobey⟩ := ih hrest
    refine ⟨answer :: given, u, last, ?_, hobey⟩
    simp only [drive, hfirst, hdrive, bind, Except.bind]
    rfl

/-- **What holds at first and is kept by each command, given those before it,
holds of every list of commands.** -/
theorem drive_snoc_induction {P : List (Command σ) → Tokenizer σ → Prop}
    (hnil : P [] t)
    (hsnoc : ∀ commands given u, t.drive commands = .ok (given, u) → P commands u →
      ∀ command answer v, u.obey command = .ok (answer, v) → P (commands ++ [command]) v)
    {commands : List (Command σ)} {answers : List Answer}
    (hdrive : t.drive commands = .ok (answers, u)) : P commands u := by
  induction commands using List.reverseRecOn generalizing u answers with
  | nil =>
    obtain ⟨-, rfl⟩ := Prod.mk.inj (Except.ok.inj hdrive)
    exact hnil
  | append_singleton commands command ih =>
    obtain ⟨given, w, answer, hbefore, hobey⟩ := exists_of_drive_snoc hdrive
    exact hsnoc commands given w hbefore (ih hbefore) command answer u hobey

/-- What one command keeps of a tokenizer that may be driven on, driving keeps. -/
theorem Drivable.keeps {P : Tokenizer σ → Prop} (h : t.Drivable o pool)
    {commands : List (Command σ)} (hrewind : ∀ place, .rewind place ∈ commands → o ≤ place)
    (htokens : ∀ command ∈ commands, ∀ token ∈ command.tokens, token ∈ pool) (ht : P t)
    (hkeeps : ∀ t u floor, t.Placed floor → P t → ∀ command ∈ commands, Obeyed t command u → P u)
    {answers : List Answer} (hdrive : t.drive commands = .ok (answers, u)) :
    u.Drivable o pool ∧ P u := by
  refine drive_induction (P := fun t => t.Drivable o pool ∧ P t) ?_ ⟨h, ht⟩ hdrive
  rintro t ⟨h, ht⟩ command hmem answer u hobey
  obtain ⟨answer', u', hobey', hu, -⟩ :=
    obey_total h command (fun place hplace => hrewind place (hplace ▸ hmem)) (htokens command hmem)
  obtain ⟨-, rfl⟩ := Prod.mk.inj (Except.ok.inj (hobey'.symm.trans hobey))
  obtain ⟨floor, hp⟩ := h.placed
  exact ⟨hu, hkeeps t u' floor hp ht command hmem (obeyed_of_obey hp hobey)⟩

theorem drivable_new (tokens : List (Token σ)) (config : TokenizerConfig)
    (htokens : ∀ token ∈ tokens, token ∈ pool) :
    (new tokens config).Drivable config.offset pool where
  placed := by
    refine ⟨config.offset, Nat.le_refl _, ?_, ?_⟩
    · exact ⟨LineTable.ordered_new _ _, Nat.le_refl _, Nat.le_refl _, fun _ h => (nomatch h)⟩
    · exact ⟨Signature.within_nil _ _, fun _ h => (nomatch h), fun _ h => (nomatch h),
        fun _ h => (nomatch h), fun _ h => (nomatch h)⟩
  origin_eq := rfl
  supplied := ⟨htokens, fun _ h => (nomatch h), fun _ h => (nomatch h)⟩

/-- A property of the first tokenizer that every command keeps holds wherever
the commands lead, and the tokenizer there is in order. -/
theorem drive_new_keeps {P : Tokenizer σ → Prop} {tokens : List (Token σ)}
    {config : TokenizerConfig} {commands : List (Command σ)}
    (hrewind : ∀ place, .rewind place ∈ commands → config.offset ≤ place)
    (hnew : P (new tokens config))
    (hkeeps : ∀ t u floor, t.Placed floor → P t → ∀ command ∈ commands, Obeyed t command u → P u)
    {answers : List Answer} (hdrive : (new tokens config).drive commands = .ok (answers, t)) :
    (∃ floor, t.Placed floor) ∧ P t := by
  have hstart : (new tokens config).Drivable config.offset
      (tokens ++ commands.flatMap Command.tokens) :=
    drivable_new tokens config fun token htoken => List.mem_append_left _ htoken
  obtain ⟨ht, hP⟩ := hstart.keeps hrewind (fun command hcommand token htoken =>
    List.mem_append_right _ (List.mem_flatMap.2 ⟨command, hcommand, htoken⟩)) hnew hkeeps hdrive
  exact ⟨ht.placed, hP⟩

/-- **A tokenizer never meets a fault**, whatever it is asked, in any order and
under any setup, unless it is moved to a place before its start. Every lexeme
that it gives or holds back is well made: it is not empty, and its value is
decoded from a text and a state that a token at hand holds valid. A strict
token answers every other demand to decode with a fault, so there are none. -/
theorem drive_meets_no_fault (tokens : List (Token σ)) (config : TokenizerConfig)
    (commands : List (Command σ))
    (hrewind : ∀ place, .rewind place ∈ commands → config.offset ≤ place) :
    ∃ answers t, (new tokens config).drive commands = .ok (answers, t) ∧
      (∀ taken, .lexemes taken ∈ answers →
        ∀ l ∈ taken, l.WellMade (tokens ++ commands.flatMap Command.tokens)) ∧
      ∀ r ∈ t.results, r.lexeme.WellMade (tokens ++ commands.flatMap Command.tokens) := by
  have hstart : (new tokens config).Drivable config.offset
      (tokens ++ commands.flatMap Command.tokens) :=
    drivable_new tokens config fun token htoken => List.mem_append_left _ htoken
  obtain ⟨answers, t, hdrive, ht, hanswers⟩ := drive_total hstart commands hrewind
    fun command hcommand token htoken =>
      List.mem_append_right _ (List.mem_flatMap.2 ⟨command, hcommand, htoken⟩)
  exact ⟨answers, t, hdrive, fun taken htaken => hanswers _ htaken taken rfl, ht.supplied.results⟩

/-- A tokenizer that is fed on after an early stop, gets broken glyphs in two
encodings, and is moved forward and back. -/
theorem drive_meets_no_fault_numeric :
    let tokens := [(Token.numeric {} 0).toToken]
    let commands : List (Command Numeric.Progress) :=
      [.setMode ⟨.first, true⟩, .feed 0x31, .feed 0x2b, .feed 0xf0, .feed 0x32, .take,
        .setEncoding .utf16, .feed 0xd83d, .rewind 9, .feed 0x0a, .rewind 2, .setTokens [],
        .feed 0x39, .finish, .take]
    (∀ place, .rewind place ∈ commands → 2 ≤ place) ∧
      ∃ answers t, (new tokens { offset := 2 }).drive commands = .ok (answers, t) ∧
        (∀ taken, .lexemes taken ∈ answers →
          ∀ l ∈ taken, l.WellMade (tokens ++ commands.flatMap Command.tokens)) ∧
        ∀ r ∈ t.results, r.lexeme.WellMade (tokens ++ commands.flatMap Command.tokens) := by
  intro tokens commands
  have hrewind : ∀ place, .rewind place ∈ commands → 2 ≤ place := by
    intro place hplace
    obtain rfl | rfl : place = 9 ∨ place = 2 := by simpa [commands] using hplace
    all_goals decide
  exact ⟨hrewind, drive_meets_no_fault tokens { offset := 2 } commands hrewind⟩

end Tokenizer

end Lexing
