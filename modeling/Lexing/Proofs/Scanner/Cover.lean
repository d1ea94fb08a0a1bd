import Lexing.Proofs.Scanner.Stage
import Lexing.Token.Numeric

/-!
# No text is lost

Without interleaving, what a search finds is a piece of the text before it, and
a search that finds nothing has read a gap (`SearchedText.pieces`). The next
search starts where the piece ends, so the committed lexemes and the gaps
between them make up the source (`scan_covers`).
-/

namespace Lexing

variable {σ : Type}

open Tokenizer

/-- **What a search finds is a piece of the text**, or all of it is a gap. -/
theorem SearchedText.pieces {e : Encoding} {P : PolicyTable} {o floor : Nat}
    {t v : Tokenizer σ} {read text : List Char} (h : SearchedText t text v)
    (hstage : Stage e P o t read) (hplaced : t.Placed floor) (he : t.encoding = e)
    (hpolicies : t.policies = P) (hmode : t.mode.interleaved = false)
    (hposition : t.position = o + e.size read) :
    (v.results = [] → ∀ c ∈ read ++ text, P.Skips c) ∧
      ∀ r ∈ v.results, PieceOf e P o (read ++ text) r.lexeme := by
  induction h generalizing read with
  | finished t =>
    rw [List.append_nil]
    exact ⟨hstage.skips_of_finished, fun r => hstage.piece_of_finished hplaced.held.fits hposition⟩
  | ready lines run hlines htreated =>
    rw [he] at htreated
    have hready := (hstage.tracked lines run).ready (hplaced.held.tracked lines run)
      (fun h => signature_tracked_of_idle lines run h) hpolicies hmode hposition htreated
    refine ⟨fun hnone => absurd hnone htreated.results_ne_nil, fun r hr => ?_⟩
    simpa using (hready r hr).append _
  | @onward t u v c rest lines run hlines htreated _ ih =>
    rw [he] at htreated ih
    have hsetup := htreated.setupAs
    have hwidth := e.unitLen_pos c
    have honward := (hstage.tracked lines run).onward (hplaced.held.tracked lines run)
      (fun h => signature_tracked_of_idle lines run h) hpolicies hmode hposition htreated
    have hnext := htreated.position_snoc hposition
    have hrest := ih (honward.passedOver _) ((htreated.placed hplaced hlines hwidth).passedOver _)
      (hsetup.encoding.trans he) (hsetup.policies.trans hpolicies)
      ((congrArg Mode.interleaved hsetup.mode).trans hmode) hnext
    simpa using hrest

/-- **Lexemes cover a text** that starts at an offset, as far as it must be
covered. -/
structure Covers (e : Encoding) (P : PolicyTable) (o : Nat) (text : List Char)
    (lexemes : List Lexeme) : Prop where
  /-- no lexeme is empty -/
  nonempty : ∀ l ∈ lexemes, l.start < l.stop
  /-- they come in the order of the text and do not overlap -/
  ordered : lexemes.Pairwise fun l k => l.stop ≤ k.start
  /-- they lie inside the text -/
  inside : ∀ l ∈ lexemes, o ≤ l.start ∧ l.stop ≤ o + e.size text
  /-- each spans some characters, and shows what they show -/
  spans : ∀ l ∈ lexemes, ∃ front mid back, text = front ++ mid ++ back ∧
    l.start = o + e.size front ∧ l.stop = o + e.size (front ++ mid) ∧ l.text = P.spanText mid
  /-- a character outside their spans may be skipped -/
  outside : ∀ front c back, text = front ++ c :: back → P.Skips c ∨
    ∃ l ∈ lexemes, l.start ≤ o + e.size front ∧ o + e.size (front ++ [c]) ≤ l.stop

namespace Covers

variable {e : Encoding} {P : PolicyTable} {o : Nat} {gap mid rest text : List Char}

/-- A gap needs no lexemes. -/
theorem nil (h : ∀ c ∈ text, P.Skips c) : Covers e P o text [] where
  nonempty l hl := nomatch hl
  ordered := List.Pairwise.nil
  inside l hl := nomatch hl
  spans l hl := nomatch hl
  outside front c back htext := .inl (h c (by simp [htext]))

/-- An item of a list in three parts lies in one of them. -/
theorem split_cases {α : Type} {gap mid rest front back : List α} {c : α}
    (h : gap ++ mid ++ rest = front ++ c :: back) :
    (∃ b, gap = front ++ c :: b) ∨ (∃ a b, front = gap ++ a ∧ mid = a ++ c :: b) ∨
      ∃ a, front = gap ++ mid ++ a ∧ rest = a ++ c :: back := by
  obtain ⟨a, rfl, hrest⟩ | ⟨b, hfront, hback⟩ := List.append_eq_append_iff.1 h
  · exact .inr (.inr ⟨a, rfl, hrest⟩)
  · cases b with
    | nil => exact .inr (.inr ⟨[], by simpa using hfront.symm, by simpa using hback.symm⟩)
    | cons d b =>
      obtain ⟨rfl, -⟩ := List.cons.inj hback
      obtain ⟨a, rfl, hmid⟩ | ⟨b', hgap, hmid⟩ := List.append_eq_append_iff.1 hfront
      · exact .inr (.inl ⟨a, b, rfl, hmid⟩)
      · cases b' with
        | nil => exact .inr (.inl ⟨[], b, by simpa using hgap.symm, by simpa using hmid.symm⟩)
        | cons d b' =>
          obtain ⟨rfl, -⟩ := List.cons.inj hmid
          exact .inl ⟨b', hgap⟩

/-- A piece behind a gap, and then what covers the rest. -/
theorem cons {l : Lexeme} {lexemes : List Lexeme} (hmid : mid ≠ []) (hgap : ∀ c ∈ gap, P.Skips c)
    (hstart : l.start = o + e.size gap) (hstop : l.stop = o + e.size (gap ++ mid))
    (htext : l.text = P.spanText mid) (h : Covers e P (o + e.size (gap ++ mid)) rest lexemes) :
    Covers e P o (gap ++ mid ++ rest) (l :: lexemes) where
  nonempty := by
    refine List.forall_mem_cons.2 ⟨?_, h.nonempty⟩
    have := e.size_pos_of_ne_nil hmid
    rw [hstart, hstop, Encoding.size_append]
    omega
  ordered := by
    refine List.pairwise_cons.2 ⟨fun k hk => ?_, h.ordered⟩
    rw [hstop]
    exact (h.inside k hk).1
  inside := by
    refine List.forall_mem_cons.2 ⟨?_, fun k hk => ?_⟩
    · rw [hstart, hstop, Encoding.size_append _ (gap ++ mid)]
      omega
    · have := h.inside k hk
      rw [Encoding.size_append _ (gap ++ mid)]
      omega
  spans := by
    refine List.forall_mem_cons.2 ⟨⟨gap, mid, rest, rfl, hstart, hstop, htext⟩, fun k hk => ?_⟩
    obtain ⟨front, mid', back, rfl, hk⟩ := h.spans k hk
    refine ⟨gap ++ mid ++ front, mid', back, by simp, ?_, ?_, hk.2.2⟩
    · rw [hk.1, Encoding.size_append _ (gap ++ mid), Nat.add_assoc]
    · rw [hk.2.1, List.append_assoc (gap ++ mid), Encoding.size_append _ (gap ++ mid),
        Nat.add_assoc]
  outside front c back hsplit := by
    obtain ⟨b, hfront⟩ | ⟨a, b, rfl, rfl⟩ | ⟨a, rfl, hrest⟩ := split_cases hsplit
    · exact .inl (hgap c (by simp [hfront]))
    · refine .inr ⟨l, List.mem_cons_self, ?_, ?_⟩
      · rw [hstart, Encoding.size_append]
        omega
      · rw [hstop]
        simp only [Encoding.size_append, Encoding.size_cons, Encoding.size_nil]
        omega
    · refine (h.outside a c back hrest).imp_right fun ⟨k, hk, hle⟩ =>
        ⟨k, List.mem_cons_of_mem _ hk, ?_⟩
      rw [List.append_assoc (gap ++ mid), Encoding.size_append _ (gap ++ mid),
        Encoding.size_append _ (gap ++ mid)]
      omega

end Covers

/-- The lexemes of a scan without interleaving cover its text. -/
theorem Committed.covers {e : Encoding} {P : PolicyTable} {o : Nat} {t : Tokenizer σ}
    {text : List Char} {lexemes : List Lexeme}
    (h : Committed t (text.flatMap e.encodeChar) lexemes) (hfresh : t.Fresh) (hplaced : t.Placed o)
    (hposition : t.position = o) (he : t.encoding = e) (hpolicies : t.policies = P)
    (hmode : t.mode.interleaved = false) : Covers e P o text lexemes := by
  generalize hunits : text.flatMap e.encodeChar = units at h
  induction h generalizing text o with
  | done hsearch hnone =>
    subst hunits
    have hpieces := (hsearch.text he text).pieces (.of_fresh hfresh) hplaced he hpolicies hmode
      hposition
    exact .nil (hpieces.1 (first?_eq_none_iff.1 hnone))
  | @commit t v _ r n rest hsearch hfirst hstop _ ih =>
    subst hunits
    have hpieces := (hsearch.text he text).pieces (.of_fresh hfresh) hplaced he hpolicies hmode
      hposition
    have hsetup := hsearch.setupAs
    have hv := hsearch.placed hplaced
    obtain ⟨gap, mid, rest', rfl, hmid, hgap, hstart, hstop', htext⟩ :=
      hpieces.2 r (mem_of_first? hfirst)
    refine .cons hmid hgap hstart hstop' htext ?_
    rw [← hstop']
    -- the next search starts behind the piece
    have hn : n = e.size (gap ++ mid) := by omega
    refine ih (fresh_rewind v _) (placed_rewind hv.lines _ ?_) rfl (hsetup.encoding.trans he)
      (hsetup.policies.trans hpolicies) ((congrArg Mode.interleaved hsetup.mode).trans hmode) ?_
    · exact Nat.le_trans hv.lines.origin_le (by omega)
    · rw [hn, e.drop_flatMap_encodeChar]

/-- **No source text is lost or duplicated**, whatever the policies are and
whenever lexemes are reported: a scan without interleaving succeeds, and what
it commits covers the source. -/
theorem scan_covers (tokens : List (Token σ)) (config : TokenizerConfig)
    (reserved : Option Reserved) (policies : PolicyTable) (source : String)
    (hmode : config.interleaved = false) :
    ∃ lexemes s',
      (Scanner.ofTokens tokens config reserved policies).scan source = .ok (lexemes, s') ∧
      Covers config.encoding policies config.offset source.toList lexemes := by
  obtain ⟨lexemes, s', hscan, hcommitted⟩ := Scanner.scanUnits_total tokens config reserved policies
    (config.encoding.units source)
  refine ⟨lexemes, s', hscan, ?_⟩
  rw [config.encoding.units_eq_flatMap] at hcommitted
  have hplaced := Scanner.placed_ofTokens tokens config reserved policies
  exact hcommitted.covers ⟨rfl, rfl, rfl⟩ hplaced rfl rfl rfl hmode

/-- A source with characters that are ignored or disallowed. -/
theorem scan_covers_numeric : ({} : TokenizerConfig).interleaved = false ∧
    ∃ lexemes s', (Scanner.ofTokens [(Token.numeric {} 0).toToken] {} none
        ((PolicyTable.standard.set '_' (.single .ignore)).set ';' (.single .disallow))).scan
          "1_0 0x; ab" = .ok (lexemes, s') ∧
      Covers .utf8 ((PolicyTable.standard.set '_' (.single .ignore)).set ';' (.single .disallow)) 0
        "1_0 0x; ab".toList lexemes :=
  ⟨rfl, scan_covers [(Token.numeric {} 0).toToken] {} none _ "1_0 0x; ab" rfl⟩

end Lexing
