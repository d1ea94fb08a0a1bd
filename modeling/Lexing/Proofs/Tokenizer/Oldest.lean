import Lexing.Proofs.Charset.Glyphs
import Lexing.Proofs.Token.Whole
import Lexing.Proofs.Tokenizer.Driven
import Lexing.Proofs.Tokenizer.Heeded
import Lexing.Token.Fixed

/-!
# Since when the signature has been kept

The signature is meant to hold what has been heard since the oldest candidates
began that are still active. It holds that much, from the place of these
candidates on, whatever a tokenizer has been asked before. But nothing is ever
taken off its front: it is dropped as a whole, once no candidate is active. So
where candidates began while others were at work, and have outlived them, the
signature still holds what those others have heard. It holds just what it is
meant to hold if and only if the oldest candidates began alone
(`signature_since_oldest`), as they always do without interleaving.
-/

namespace Lexing

variable {σ : Type}

/-- A candidate whose token takes a character as the first one. -/
def Candidate.BeginsWith (x : Candidate σ) (c : Char) : Prop :=
  ∃ reserved, (x.token.advance (x.token.fresh reserved) [] c).isSome = true

/-- The offsets of a signature. -/
def Signature.offsets (s : Signature) : List Nat := s.map Prod.snd

/-! ## Listening to commands -/

/-- **One who listens to commands**, and knows of them where the next unit
stands, how it is read, and what has been heard. -/
structure Listener where
  encoding : Encoding
  policies : PolicyTable
  place : Nat
  heard : Signature

namespace Listener

/-- Listen to a command. -/
def obey (l : Listener) : Command σ → Listener
  | .feed unit => { l with
      place := l.place + 1
      heard := l.heard ++ Lexing.heard l.encoding l.policies l.place [unit] }
  | .rewind place => { l with place }
  | .setEncoding encoding => { l with encoding }
  | .setPolicies policies => { l with policies }
  | _ => l

/-- A listener who knows where a tokenizer is and how it reads. -/
structure Follows (l : Listener) (t : Tokenizer σ) : Prop where
  encoding : l.encoding = t.encoding
  policies : l.policies = t.policies
  place : l.place = t.position

theorem heard_prefix_obey (l : Listener) (command : Command σ) :
    l.heard <+: (l.obey command).heard := by
  cases command with
  | feed unit => exact List.prefix_append _ _
  | _ => exact List.prefix_rfl

theorem heard_prefix_foldl (l : Listener) (commands : List (Command σ)) :
    l.heard <+: (commands.foldl obey l).heard := by
  induction commands generalizing l with
  | nil => exact List.prefix_rfl
  | cons command commands ih => exact (l.heard_prefix_obey command).trans (ih _)

end Listener

open Listener (Follows)

namespace Tokenizer

variable {t u v t₀ : Tokenizer σ} {commands : List (Command σ)} {command : Command σ}
  {given : List Answer} {answer : Answer}

/-- A listener who begins to listen. -/
def listener (t : Tokenizer σ) : Listener := ⟨t.encoding, t.policies, t.position, []⟩

/-- **What commands bring to the tokens** of a tokenizer. -/
def hears (t : Tokenizer σ) (commands : List (Command σ)) : Signature :=
  (commands.foldl Listener.obey t.listener).heard

/-- What one command brings. -/
def hearing (t : Tokenizer σ) : Command σ → Signature
  | .feed unit => heard t.encoding t.policies t.position [unit]
  | _ => []

theorem heeded_of_obey {unit : UInt32} (h : t.obey (.feed unit) = .ok (answer, u)) :
    Heeded t unit u := by
  obtain ⟨p, hfeed, h⟩ := exists_of_map_eq_ok h
  obtain ⟨-, rfl⟩ := Prod.mk.inj h
  exact heeded_of_feed hfeed

theorem beside_of_obey_finish (h : t.obey .finish = .ok (answer, u)) :
    Beside { t with active := [], signature := [] } u := by
  obtain ⟨p, hfinish, h⟩ := exists_of_map_eq_ok h
  obtain ⟨-, rfl⟩ := Prod.mk.inj h
  exact beside_of_finish hfinish

/-- A listener goes on to follow. -/
theorem follows_obey {l : Listener} (h : l.Follows t) (hobey : t.obey command = .ok (answer, u)) :
    (l.obey command).Follows u := by
  cases command with
  | feed unit =>
    obtain ⟨hencoding, hpolicies, hposition⟩ := (heeded_of_obey hobey).setup
    exact ⟨h.encoding.trans hencoding.symm, h.policies.trans hpolicies.symm,
      (congrArg (· + 1) h.place).trans hposition.symm⟩
  | finish =>
    obtain ⟨_, _, _, _, rfl⟩ := beside_of_obey_finish hobey
    exact ⟨h.encoding, h.policies, h.place⟩
  | rewind place =>
    obtain ⟨-, rfl⟩ := Prod.mk.inj (Except.ok.inj hobey)
    exact ⟨h.encoding, h.policies, rfl⟩
  | setEncoding encoding =>
    obtain ⟨-, rfl⟩ := Prod.mk.inj (Except.ok.inj hobey)
    exact ⟨rfl, h.policies, h.place⟩
  | setPolicies policies =>
    obtain ⟨-, rfl⟩ := Prod.mk.inj (Except.ok.inj hobey)
    exact ⟨h.encoding, rfl, h.place⟩
  | _ =>
    obtain ⟨-, rfl⟩ := Prod.mk.inj (Except.ok.inj hobey)
    exact ⟨h.encoding, h.policies, h.place⟩

/-- A listener who follows hears what a command brings. -/
theorem heard_obey {l : Listener} (h : l.Follows t) (command : Command σ) :
    (l.obey command).heard = l.heard ++ t.hearing command := by
  cases command with
  | feed unit =>
    show l.heard ++ heard l.encoding l.policies l.place [unit] = _
    rw [h.encoding, h.policies, h.place]
    rfl
  | _ => exact (List.append_nil _).symm

/-! ## Where candidates began -/

/-- **Where a bucket began** in a run of commands: a tokenizer was met that
heard a unit, and since then the signature from the place of the bucket on holds
what has been heard. -/
structure Began (t₀ : Tokenizer σ) (commands : List (Command σ)) (t : Tokenizer σ) (b : Bucket σ)
    (met : Tokenizer σ) (unit : UInt32) (after : List (Command σ)) : Prop where
  drive : ∃ before given, commands = before ++ .feed unit :: after ∧
    t₀.drive before = .ok (given, met)
  unmoved : ∀ place, .rewind place ∉ after
  follows : ((.feed unit :: after).foldl Listener.obey met.listener).Follows t
  position_eq : met.position = b.start
  loud : ¬Silent met.encoding met.policies unit
  drop_key : t.signature.drop b.key = met.hears (.feed unit :: after)
  key_eq_zero_iff : b.key = 0 ↔ met.active = []
  live_ne_nil : b.live ≠ []
  begins : ∀ x ∈ b.live, x.BeginsWith (leadToChar unit)

namespace Began

variable {a b : Bucket σ} {met : Tokenizer σ} {unit : UInt32} {after : List (Command σ)}

/-- What has been heard starts with the first character of the bucket. -/
theorem head?_hears (h : Began t₀ commands t b met unit after) :
    (met.hears (.feed unit :: after)).head? = some (leadToChar unit, b.start) := by
  have hfirst : (met.listener.obey (.feed unit : Command σ)).heard
      = [(leadToChar unit, b.start)] := by
    show [] ++ heard met.encoding met.policies met.position [unit] = _
    rw [List.nil_append, heard_cons_of_not_silent h.loud, h.position_eq, heard]
  obtain ⟨rest, hrest⟩ := (met.listener.obey (.feed unit)).heard_prefix_foldl after
  rw [hears, List.foldl_cons, ← hrest, hfirst]
  rfl

theorem key_lt (h : Began t₀ commands t b met unit after) : b.key < t.signature.length := by
  have hhead := h.head?_hears
  rw [← h.drop_key] at hhead
  by_contra hle
  rw [List.drop_eq_nil_of_le (Nat.le_of_not_lt hle)] at hhead
  cases hhead

/-- Its first character stands in the signature. -/
theorem first_mem (h : Began t₀ commands t b met unit after) :
    (leadToChar unit, b.start) ∈ t.signature := by
  have hhead := h.head?_hears
  rw [← h.drop_key] at hhead
  exact List.mem_of_mem_drop (List.mem_of_mem_head? hhead)

/-- **A bucket that goes on** has begun where it did, as long as the signature
takes in what is heard. -/
theorem snoc (h : Began t₀ commands t a met unit after) (hobey : t.obey command = .ok (answer, u))
    (hmoved : ∀ place, command ≠ .rewind place)
    (hsignature : u.signature = t.signature ++ t.hearing command) (hb : Descends b a)
    (hne : b.live ≠ []) : Began t₀ (commands ++ [command]) u b met unit (after ++ [command]) := by
  obtain ⟨before, given, rfl, hbefore⟩ := h.drive
  obtain ⟨live, rfl, hlive⟩ := hb
  refine ⟨⟨before, given, by simp, hbefore⟩, ?_, ?_, h.position_eq, h.loud, ?_, h.key_eq_zero_iff,
    hne, ?_⟩
  · intro place hmem
    obtain hmem | hmem := List.mem_append.1 hmem
    · exact h.unmoved place hmem
    · exact hmoved place (List.mem_singleton.1 hmem).symm
  · rw [← List.cons_append, List.foldl_append]
    exact follows_obey h.follows hobey
  · rw [hsignature, List.drop_append_of_le_length (Nat.le_of_lt h.key_lt), h.drop_key, hears, hears,
      ← List.cons_append, List.foldl_append]
    exact (heard_obey h.follows command).symm
  · intro y hy
    obtain ⟨x, hx, htoken⟩ := hlive y hy
    rw [Candidate.BeginsWith, htoken]
    exact h.begins x hx

end Began

/-! ## The signature along commands -/

/-- **What a signature is like** after commands: its offsets increase, and the
buckets lie one behind the other, each where it began. -/
structure Attuned (t₀ : Tokenizer σ) (commands : List (Command σ)) (t : Tokenizer σ) : Prop where
  within : t.signature.Within 0 t.position
  ascii : IsAscii t.signature.text
  starts : (t.active.map (·.start)).Pairwise (· < ·)
  began : ∀ b ∈ t.active, ∃ met unit after, Began t₀ commands t b met unit after

/-- Without candidates there is only a signature. -/
theorem attuned_of_idle (hactive : t.active = []) (hsignature : t.signature = []) :
    Attuned t₀ commands t := by
  refine ⟨?_, ?_, ?_, ?_⟩
  · rw [hsignature]
    exact Signature.within_nil _ _
  · rw [hsignature]
    exact isAscii_nil
  · rw [hactive]
    exact List.Pairwise.nil
  · rw [hactive]
    exact List.forall_mem_nil _

theorem signature_step_of_idle (h : t.active = []) : t.step.signature = [] := by
  rw [step, h]
  rfl

theorem signature_step_of_live (h : t.active ≠ []) : t.step.signature = t.signature :=
  if_neg (by simpa using h)

namespace Attuned

variable {unit : UInt32}

/-- The buckets began before the next unit. -/
theorem start_lt (h : Attuned t₀ commands t) {b : Bucket σ} (hb : b ∈ t.active) :
    b.start < t.position := by
  obtain ⟨met, unit, after, hbegan⟩ := h.began b hb
  exact h.within.lt_stop _ hbegan.first_mem

theorem signature_ne_nil (h : Attuned t₀ commands t) (hactive : t.active ≠ []) :
    t.signature ≠ [] := by
  obtain ⟨b, hb⟩ := List.exists_mem_of_ne_nil _ hactive
  obtain ⟨met, unit, after, hbegan⟩ := h.began b hb
  exact List.ne_nil_of_mem hbegan.first_mem

/-- What a unit that is heard makes of the signature. -/
theorem within_snoc (h : Attuned t₀ commands t) (c : Char) :
    Signature.Within (t.step.signature ++ [(c, t.position)]) 0 (t.position + 1) := by
  refine Signature.Within.snoc ?_ c (Nat.zero_le _)
  by_cases hactive : t.active = []
  · rw [signature_step_of_idle hactive]
    exact Signature.within_nil _ _
  · rw [signature_step_of_live hactive]
    exact h.within

theorem isAscii_snoc (h : Attuned t₀ commands t) (unit : UInt32) :
    IsAscii (Signature.text (t.step.signature ++ [(leadToChar unit, t.position)])) := by
  rw [Signature.text_append, isAscii_append]
  refine ⟨?_, List.forall_mem_singleton.2 (toNat_leadToChar_lt unit)⟩
  by_cases hactive : t.active = []
  · rw [signature_step_of_idle hactive]
    exact isAscii_nil
  · rw [signature_step_of_live hactive]
    exact h.ascii

/-- **A command that leaves the candidates alone**, and brings nothing. -/
theorem unchanged (h : Attuned t₀ commands t) (hobey : t.obey command = .ok (answer, u))
    (hmoved : ∀ place, command ≠ .rewind place) (hactive : u.active = t.active)
    (hsignature : u.signature = t.signature) (hposition : t.position ≤ u.position)
    (hhearing : t.hearing command = []) : Attuned t₀ (commands ++ [command]) u := by
  refine ⟨?_, ?_, ?_, fun b hb => ?_⟩
  · rw [hsignature]
    exact h.within.mono hposition
  · rw [hsignature]
    exact h.ascii
  · rw [hactive]
    exact h.starts
  · rw [hactive] at hb
    obtain ⟨met, unit, after, hbegan⟩ := h.began b hb
    have hnews : u.signature = t.signature ++ t.hearing command := by
      rw [hsignature, hhearing, List.append_nil]
    exact ⟨met, unit, _, hbegan.snoc hobey hmoved hnews (.refl b) hbegan.live_ne_nil⟩

section Kept

variable {kept : List (Bucket σ)}

/-- Buckets that go on lie in their order. -/
theorem starts_kept (h : Attuned t₀ commands t) (hkept : List.Forall₂ Descends kept t.active) :
    ((kept.filter (!·.live.isEmpty)).map (·.start)).Pairwise (· < ·) := by
  have hpairwise : (kept.map (·.start)).Pairwise (· < ·) := starts_of_descends hkept ▸ h.starts
  exact hpairwise.sublist (List.filter_sublist.map Bucket.start)

/-- A bucket that begins lies behind them. -/
theorem starts_opened (h : Attuned t₀ commands t) (hkept : List.Forall₂ Descends kept t.active)
    {b : Bucket σ} (hb : b.start = t.position) :
    ((kept.filter (!·.live.isEmpty) ++ [b]).map (·.start)).Pairwise (· < ·) := by
  rw [List.map_append, List.pairwise_append]
  refine ⟨h.starts_kept hkept, List.pairwise_singleton _ _, List.forall_mem_map.2 fun y hy => ?_⟩
  obtain ⟨a, ha, live, rfl, -⟩ := exists_descends_of_mem hkept (List.mem_of_mem_filter hy)
  have hlt : a.start < b.start := Nat.lt_of_lt_of_eq (h.start_lt ha) hb.symm
  exact List.forall_mem_singleton.2 hlt

/-- **Buckets that go on with a unit** have begun where they did. -/
theorem began_kept (h : Attuned t₀ commands t) (hobey : t.obey (.feed unit) = .ok (answer, u))
    (hloud : ¬Silent t.encoding t.policies unit) (hkept : List.Forall₂ Descends kept t.active)
    (hsignature : u.signature = t.step.signature ++ [(leadToChar unit, t.position)])
    {b : Bucket σ} (hb : b ∈ kept.filter (!·.live.isEmpty)) :
    ∃ met unit' after, Began t₀ (commands ++ [.feed unit]) u b met unit' after := by
  obtain ⟨hmem, hlive⟩ := List.mem_filter.1 hb
  obtain ⟨a, ha, hab⟩ := exists_descends_of_mem hkept hmem
  obtain ⟨met, unit', after, hbegan⟩ := h.began a ha
  have hnews : u.signature = t.signature ++ t.hearing (.feed unit) := by
    rw [hsignature, signature_step_of_live (List.ne_nil_of_mem ha), hearing,
      heard_cons_of_not_silent hloud, heard]
  exact ⟨met, unit', _, hbegan.snoc hobey (by simp) hnews hab (by simpa using hlive)⟩

end Kept

/-- **A bucket begins** with a unit, first if nothing else is active. -/
theorem began_opened (h : Attuned t₀ commands t) (hdrive : t₀.drive commands = .ok (given, t))
    (hobey : t.obey (.feed unit) = .ok (answer, u)) (hloud : ¬Silent t.encoding t.policies unit)
    (hbegin : t.beginning (leadToChar unit) ≠ [])
    (hsignature : u.signature = t.step.signature ++ [(leadToChar unit, t.position)])
    (line lineStart : Nat) :
    Began t₀ (commands ++ [.feed unit]) u
      ⟨u.signature.length - 1, t.position, line, lineStart, t.beginning (leadToChar unit)⟩ t unit
      [] where
  drive := ⟨commands, given, rfl, hdrive⟩
  unmoved _ h := nomatch h
  follows := follows_obey ⟨rfl, rfl, rfl⟩ hobey
  position_eq := rfl
  loud := hloud
  drop_key := by
    have hheard : t.hears [.feed unit] = heard t.encoding t.policies t.position [unit] := rfl
    rw [hheard, heard_cons_of_not_silent hloud, heard, hsignature]
    simp
  key_eq_zero_iff := by
    rw [hsignature, List.length_append, List.length_singleton, Nat.add_sub_cancel,
      List.length_eq_zero_iff]
    refine ⟨fun hnil => ?_, signature_step_of_idle⟩
    by_contra hactive
    rw [signature_step_of_live hactive] at hnil
    exact h.signature_ne_nil hactive hnil
  live_ne_nil := hbegin
  begins x hx := by
    obtain ⟨p, -, hp⟩ := List.mem_filterMap.1 hx
    obtain ⟨st, hst, rfl⟩ := Option.map_eq_some_iff.1 hp
    exact ⟨t.reserved, by rw [hst]; rfl⟩

/-- **One command keeps a tokenizer attuned.** -/
theorem obey (h : Attuned t₀ commands t) (hdrive : t₀.drive commands = .ok (given, t))
    (hobey : t.obey command = .ok (answer, u)) : Attuned t₀ (commands ++ [command]) u := by
  cases command with
  | feed unit =>
    cases heeded_of_obey hobey with
    | passed hidle hu =>
      obtain ⟨_, _, _, _, rfl⟩ := hu
      by_cases hactive : t.active = []
      · exact attuned_of_idle hactive (signature_step_of_idle hactive)
      · have hsilent := hidle.resolve_right hactive
        exact h.unchanged hobey (fun _ h => nomatch h) rfl (signature_step_of_live hactive)
          (Nat.le_succ _) (heard_of_silent (List.forall_mem_singleton.2 hsilent))
    | offered hloud kept hkept hu =>
      obtain ⟨_, _, _, _, rfl⟩ := hu
      exact ⟨h.within_snoc _, h.isAscii_snoc _, h.starts_kept hkept,
        fun b hb => h.began_kept hobey hloud hkept rfl hb⟩
    | opened hloud kept hkept hbegin hmode line lineStart hu =>
      obtain ⟨_, _, _, _, rfl⟩ := hu
      refine ⟨h.within_snoc _, h.isAscii_snoc _, ?_, List.forall_mem_append.2 ⟨fun b hb => ?_, ?_⟩⟩
      · exact h.starts_opened hkept rfl
      · exact h.began_kept hobey hloud hkept rfl hb
      · exact List.forall_mem_singleton.2
          ⟨t, unit, [], h.began_opened hdrive hobey hloud hbegin rfl line lineStart⟩
  | finish =>
    obtain ⟨_, _, _, _, rfl⟩ := beside_of_obey_finish hobey
    exact attuned_of_idle rfl rfl
  | rewind place =>
    obtain ⟨-, rfl⟩ := Prod.mk.inj (Except.ok.inj hobey)
    exact attuned_of_idle rfl rfl
  | _ =>
    obtain ⟨-, rfl⟩ := Prod.mk.inj (Except.ok.inj hobey)
    exact h.unchanged hobey (fun _ h => nomatch h) rfl rfl (Nat.le_refl _) rfl

end Attuned

/-- **Whatever a tokenizer is asked, it is attuned.** -/
theorem attuned_drive {tokens : List (Token σ)} {config : TokenizerConfig} {answers : List Answer}
    (hdrive : (new tokens config).drive commands = .ok (answers, t)) :
    Attuned (new tokens config) commands t :=
  drive_snoc_induction (attuned_of_idle rfl rfl)
    (fun _ _ _ hbefore h _ _ _ hobey => h.obey hbefore hobey) hdrive

/-- Without interleaving, candidates always begin at the front of the
signature. -/
theorem key_eq_zero_of_drive {tokens : List (Token σ)} {config : TokenizerConfig}
    {answers : List Answer} (hdrive : (new tokens config).drive commands = .ok (answers, t))
    (hconfig : config.interleaved = false)
    (hmode : ∀ mode, .setMode mode ∈ commands → mode.interleaved = false) :
    ∀ b ∈ t.active, b.key = 0 := by
  have hnew : (new tokens config).mode.interleaved = false ∧
      ∀ b ∈ (new tokens config).active, b.key = 0 := ⟨hconfig, List.forall_mem_nil _⟩
  refine (drive_induction (P := fun t => t.mode.interleaved = false ∧ ∀ b ∈ t.active, b.key = 0)
    ?_ hnew hdrive).2
  rintro t ⟨hsingle, hkeys⟩ command hmem answer u hobey
  cases command with
  | feed unit =>
    have hkept {kept : List (Bucket σ)} (hkept : List.Forall₂ Descends kept t.active)
        (b : Bucket σ) (hb : b ∈ kept.filter (!·.live.isEmpty)) : b.key = 0 := by
      obtain ⟨a, ha, live, rfl, -⟩ := exists_descends_of_mem hkept (List.mem_of_mem_filter hb)
      exact hkeys a ha
    cases heeded_of_obey hobey with
    | passed _ hu =>
      obtain ⟨_, _, _, _, rfl⟩ := hu
      exact ⟨hsingle, hkeys⟩
    | offered _ _ hdescends hu =>
      obtain ⟨_, _, _, _, rfl⟩ := hu
      exact ⟨hsingle, hkept hdescends⟩
    | opened _ _ hdescends _ hidle line lineStart hu =>
      obtain ⟨_, _, _, _, rfl⟩ := hu
      refine ⟨hsingle, List.forall_mem_append.2 ⟨hkept hdescends, List.forall_mem_singleton.2 ?_⟩⟩
      have hnil := hidle.resolve_left (by rw [hsingle]; exact Bool.false_ne_true)
      show (t.step.signature ++ [(leadToChar unit, t.position)]).length - 1 = 0
      rw [hnil]
      rfl
  | finish =>
    obtain ⟨_, _, _, _, rfl⟩ := beside_of_obey_finish hobey
    exact ⟨hsingle, List.forall_mem_nil _⟩
  | rewind place =>
    obtain ⟨-, rfl⟩ := Prod.mk.inj (Except.ok.inj hobey)
    exact ⟨hsingle, List.forall_mem_nil _⟩
  | setMode mode =>
    obtain ⟨-, rfl⟩ := Prod.mk.inj (Except.ok.inj hobey)
    exact ⟨hmode mode hmem, hkeys⟩
  | _ =>
    obtain ⟨-, rfl⟩ := Prod.mk.inj (Except.ok.inj hobey)
    exact ⟨hsingle, hkeys⟩

/-- **Since when the signature has been kept.** Let a tokenizer be asked for
anything, in any mode and under any policies, and let candidates be active. The
signature has an offset for each of its characters, and the offsets increase.
From the place of the oldest candidates on it holds just what the units have
brought that have been fed since these candidates began, the first of which all
of them began with. It holds nothing else if and only if no candidate was active
when they began, and so without interleaving. -/
theorem signature_since_oldest {tokens : List (Token σ)} {config : TokenizerConfig}
    {answers : List Answer} (hdrive : (new tokens config).drive commands = .ok (answers, t))
    {b : Bucket σ} {younger : List (Bucket σ)} (hactive : t.active = b :: younger) :
    Text.byteLength t.signature.text = t.signature.offsets.length ∧
      t.signature.offsets.Pairwise (· < ·) ∧
      b.live ≠ [] ∧ (∀ y ∈ younger, b.start < y.start) ∧
      ∃ before unit after given met,
        commands = before ++ .feed unit :: after ∧ (∀ place, .rewind place ∉ after) ∧
        (new tokens config).drive before = .ok (given, met) ∧ met.position = b.start ∧
        t.signature.drop b.key = met.hears (.feed unit :: after) ∧
        (met.hears (.feed unit :: after)).head? = some (leadToChar unit, b.start) ∧
        (∀ x ∈ b.live, x.BeginsWith (leadToChar unit)) ∧
        (t.signature = met.hears (.feed unit :: after) ↔ met.active = []) ∧
        (config.interleaved = false →
          (∀ mode, .setMode mode ∈ commands → mode.interleaved = false) → met.active = []) := by
  have h := attuned_drive hdrive
  have hb : b ∈ t.active := hactive ▸ List.mem_cons_self
  obtain ⟨met, unit, after, hbegan⟩ := h.began b hb
  obtain ⟨before, given, hsplit, hbefore⟩ := hbegan.drive
  have hstarts : ∀ y ∈ younger, b.start < y.start := by
    have hpairwise := h.starts
    rw [hactive, List.map_cons, List.pairwise_cons, List.forall_mem_map] at hpairwise
    exact hpairwise.1
  have hwhole : t.signature = met.hears (.feed unit :: after) ↔ b.key = 0 := by
    rw [← hbegan.drop_key]
    constructor
    · intro hall
      have hlength := congrArg List.length hall
      have hkey := hbegan.key_lt
      rw [List.length_drop] at hlength
      omega
    · intro hkey
      rw [hkey, List.drop_zero]
  refine ⟨?_, List.pairwise_map.2 h.within.increasing, hbegan.live_ne_nil, hstarts, before, unit,
    after, given, met, hsplit, hbegan.unmoved, hbefore, hbegan.position_eq, hbegan.drop_key,
    hbegan.head?_hears, hbegan.begins, hwhole.trans hbegan.key_eq_zero_iff, fun hconfig hmode => ?_⟩
  · rw [byteLength_of_ascii h.ascii, Signature.length_text, Signature.offsets, List.length_map]
  · exact hbegan.key_eq_zero_iff.1 (key_eq_zero_of_drive hdrive hconfig hmode b hb)

/-- The tokens of two texts, where the second begins with the last letter of
the first. -/
def overlapping : List (Token Unit) :=
  [['a', 'b'], ['b', 'c', 'd']].zipIdx.filterMap fun (content, id) =>
    (Token.fixed id content).toOption.map (·.toToken)

/-- The second text begins inside the first and is under way when the first has
ended, and the signature still holds the first letter. -/
theorem drive_overlapping : ∃ answers t b given met,
    (new overlapping { interleaved := true }).drive [.feed 0x61, .feed 0x62, .feed 0x63]
      = .ok (answers, t) ∧ t.active = [b]
      ∧ (new overlapping { interleaved := true }).drive [.feed 0x61] = .ok (given, met)
      ∧ met.position = b.start ∧ t.signature.text = ['a', 'b', 'c']
      ∧ (met.hears [.feed 0x62, .feed 0x63]).text = ['b', 'c'] :=
  ⟨_, _, _, _, _, rfl, rfl, rfl, rfl, rfl, rfl⟩

theorem signature_since_oldest_overlapping :
    let config : TokenizerConfig := { interleaved := true }
    let commands : List (Command Unit) := [.feed 0x61, .feed 0x62, .feed 0x63]
    ∃ answers t b younger, (new overlapping config).drive commands = .ok (answers, t) ∧
      t.active = b :: younger ∧
      Text.byteLength t.signature.text = t.signature.offsets.length ∧
      t.signature.offsets.Pairwise (· < ·) ∧
      b.live ≠ [] ∧ (∀ y ∈ younger, b.start < y.start) ∧
      ∃ before unit after given met,
        commands = before ++ .feed unit :: after ∧ (∀ place, .rewind place ∉ after) ∧
        (new overlapping config).drive before = .ok (given, met) ∧ met.position = b.start ∧
        t.signature.drop b.key = met.hears (.feed unit :: after) ∧
        (met.hears (.feed unit :: after)).head? = some (leadToChar unit, b.start) ∧
        (∀ x ∈ b.live, x.BeginsWith (leadToChar unit)) ∧
        (t.signature = met.hears (.feed unit :: after) ↔ met.active = []) ∧
        (config.interleaved = false →
          (∀ mode, .setMode mode ∈ commands → mode.interleaved = false) → met.active = []) := by
  intro config commands
  obtain ⟨answers, t, b, -, -, hdrive, hactive, -⟩ := drive_overlapping
  exact ⟨answers, t, b, [], hdrive, hactive, signature_since_oldest hdrive hactive⟩

/-- **The signature need not belong to the oldest candidates.** While they are
active, it may hold more than what units have brought since they began, even if
a tokenizer is only fed. -/
theorem not_forall_signature_since_oldest :
    ¬ ∀ (tokens : List (Token Unit)) (config : TokenizerConfig) (commands : List (Command Unit))
        (answers given : List Answer) (t met : Tokenizer Unit) (b : Bucket Unit)
        (younger : List (Bucket Unit)) (before after : List (Command Unit)) (unit : UInt32),
      (∀ command ∈ commands, ∃ unit, command = .feed unit) →
        (new tokens config).drive commands = .ok (answers, t) → t.active = b :: younger →
        commands = before ++ .feed unit :: after →
        (new tokens config).drive before = .ok (given, met) → met.position = b.start →
        t.signature = met.hears (.feed unit :: after) := by
  intro hall
  obtain ⟨answers, t, b, given, met, hdrive, hactive, hbefore, hstart, htext, hheard⟩ :=
    drive_overlapping
  have hsignature := hall _ _ _ _ _ t met b [] [.feed 0x61] [.feed 0x63] 0x62 (by simp) hdrive
    hactive rfl hbefore hstart
  rw [hsignature, hheard] at htext
  exact absurd htext (by decide)

end Tokenizer

end Lexing
