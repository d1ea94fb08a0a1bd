import Lexing.Extract
import Lexing.Proofs.Scanner.Characters
import Lexing.Proofs.Token.Run

/-!
# The longest lexeme a text begins with

Along one run a token may hold the text valid, then not, and then again: `12`
is a literal, `12e` and `12e+` are none, and `12e+5` is one. Extraction reads
on as long as the token takes characters and remembers the last complete text
it has come by, with its end and the state there.

What it remembers is told by the characters read so far (`Reading.Knows`): one
more character either is the end of a longer lexeme or leaves the longest one
as it was. So at the end of the run the longest complete beginning of the text
is what is given, and if there is none, all that the token has taken
(`extract_longest`).
-/

namespace Lexing

variable {σ : Type}

/-- **The longest beginning of a text** that has a property. Not every shorter
one needs to have it. -/
structure LongestBeginning (P : List Char → Prop) (source front : List Char) : Prop where
  begins : front <+: source
  holds : P front
  longest : ∀ other, other <+: source → P other → other <+: front

namespace Token

variable {token : Token σ} {reserved : Option Reserved}

/-- The state of a token behind a text, which it sees in ASCII, if it takes
every character. -/
def behind (token : Token σ) (reserved : Option Reserved) (text : List Char) : Option σ :=
  token.run (token.fresh reserved) [] (text.map toAscii)

/-- Whether a text is a lexeme of the token, as the token sees it. -/
def reads (token : Token σ) (reserved : Option Reserved) (text : List Char) : Bool :=
  token.accepts reserved (text.map toAscii)

theorem reads_iff {text : List Char} : token.reads reserved text = true ↔
    ∃ s, token.behind reserved text = some s ∧ token.isValid s (text.map toAscii) = true := by
  unfold reads accepts behind
  exact Option.any_eq_true _ _

theorem behind_append (xs ys : List Char) :
    token.behind reserved (xs ++ ys)
      = (token.behind reserved xs).bind fun s => token.run s (xs.map toAscii) (ys.map toAscii) := by
  unfold behind
  rw [List.map_append, run_append, List.nil_append]

/-- A token that takes a text has taken its beginnings. -/
theorem isSome_behind_of_begins {p q : List Char} (h : p <+: q)
    (hq : (token.behind reserved q).isSome = true) :
    (token.behind reserved p).isSome = true := by
  obtain ⟨rest, rfl⟩ := h
  rw [behind_append] at hq
  exact Option.isSome_of_isSome_bind hq

end Token

namespace Reading

variable {token : Token σ} {reserved : Option Reserved} {e : Encoding} {r : Reading σ}
variable {mid : List Char}

/-- **What a match knows of the characters it has read**: the state behind
them, and the longest lexeme they begin with. -/
structure Knows (token : Token σ) (reserved : Option Reserved) (e : Encoding) (r : Reading σ)
    (mid : List Char) : Prop where
  state : token.behind reserved mid = some r.state
  text : r.text = mid.map toAscii
  stop : r.stop = e.size mid
  best_none : r.best = none → ∀ p, p <+: mid → ¬ token.reads reserved p = true
  best_some : ∀ n stop s, r.best = some (n, stop, s) →
    ∃ p, LongestBeginning (token.reads reserved · = true) mid p ∧ n = p.length
      ∧ stop = e.size p ∧ token.behind reserved p = some s

/-- Noting brings a match up to date that knew the longest lexeme among the
shorter beginnings. -/
theorem knows_note {s : σ} (hs : token.behind reserved mid = some s)
    (best : Option (Nat × Nat × σ))
    (hnone : best = none → ∀ p, p <+: mid → token.reads reserved p = true → p = mid)
    (hsome : ∀ n stop st, best = some (n, stop, st) →
      ∃ p, p <+: mid ∧ token.reads reserved p = true
        ∧ (∀ q, q <+: mid → token.reads reserved q = true → q = mid ∨ q <+: p)
        ∧ n = p.length ∧ stop = e.size p ∧ token.behind reserved p = some st) :
    Knows token reserved e (note token ⟨s, mid.map toAscii, e.size mid, best⟩) mid := by
  unfold note
  split
  next hvalid =>
    refine ⟨hs, rfl, rfl, nofun, fun n stop st h => ?_⟩
    obtain ⟨rfl, rfl, rfl⟩ : _ = n ∧ _ = stop ∧ _ = st := by simpa using h
    exact ⟨mid, ⟨List.prefix_rfl, Token.reads_iff.mpr ⟨s, hs, hvalid⟩, fun _ hq _ => hq⟩,
      rfl, rfl, hs⟩
  next hvalid =>
    have hno : ¬ token.reads reserved mid = true := by
      intro h
      obtain ⟨s', hs', hvalid'⟩ := Token.reads_iff.mp h
      obtain rfl : s = s' := Option.some.inj (hs.symm.trans hs')
      exact hvalid hvalid'
    refine ⟨hs, rfl, rfl, fun h p hp hreads => ?_, fun n stop st h => ?_⟩
    · exact hno (hnone h p hp hreads ▸ hreads)
    · obtain ⟨p, hp, hreads, hlongest, hrest⟩ := hsome n stop st h
      refine ⟨p, ⟨hp, hreads, fun q hq hqreads => ?_⟩, hrest⟩
      exact (hlongest q hq hqreads).resolve_left fun heq => hno (heq ▸ hqreads)

theorem knows_start (token : Token σ) (reserved : Option Reserved) (e : Encoding) :
    Knows token reserved e (start token reserved) [] :=
  knows_note rfl none (fun _ _ hp _ => List.prefix_nil.mp hp) nofun

/-- **One more character.** -/
theorem Knows.next (h : Knows token reserved e r mid) {c : Char} {s : σ}
    (hadvance : token.advance r.state r.text (toAscii c) = some s) :
    Knows token reserved e
      (note token { r with
        state := s
        text := r.text ++ [toAscii c]
        stop := r.stop + e.unitLen c }) (mid ++ [c]) := by
  have hs : token.behind reserved (mid ++ [c]) = some s := by
    rw [Token.behind_append, h.state, Option.bind_some, ← h.text]
    simp [Token.run, hadvance]
  have htext : r.text ++ [toAscii c] = (mid ++ [c]).map toAscii := by
    rw [List.map_append, h.text]
    rfl
  have hstop : r.stop + e.unitLen c = e.size (mid ++ [c]) := by
    rw [e.size_append, h.stop]
    rfl
  -- the beginnings are those of before and the whole
  have hcases : ∀ p, p <+: mid ++ [c] → p = mid ++ [c] ∨ p <+: mid :=
    fun p hp => List.prefix_concat_iff.mp hp
  rw [htext, hstop]
  refine knows_note hs r.best (fun hnone p hp hreads => ?_) fun n stop st hsome => ?_
  · exact (hcases p hp).resolve_right fun hp => h.best_none hnone p hp hreads
  · obtain ⟨p, hp, hrest⟩ := h.best_some n stop st hsome
    exact ⟨p, hp.begins.trans (List.prefix_append _ _), hp.holds,
      fun q hq hreads => (hcases q hq).imp_right fun hq => hp.longest q hq hreads, hrest⟩

/-- **A run comes to know all that the token takes.** -/
theorem Knows.run (h : Knows token reserved e r mid) (rest : List Char) :
    ∃ taken, Knows token reserved e (r.run token e rest) taken
      ∧ LongestBeginning (fun p => (token.behind reserved p).isSome = true) (mid ++ rest)
          taken := by
  induction rest generalizing r mid with
  | nil =>
    rw [List.append_nil]
    exact ⟨mid, h, List.prefix_rfl, Option.isSome_of_eq_some h.state, fun _ hp _ => hp⟩
  | cons c rest ih =>
    unfold Reading.run
    cases hadvance : token.advance r.state r.text (toAscii c) with
    | some s =>
      obtain ⟨taken, hknows, hlongest⟩ := ih (h.next hadvance)
      rw [← List.append_cons] at hlongest
      exact ⟨taken, hknows, hlongest⟩
    | none =>
      have hrefused : token.behind reserved (mid ++ [c]) = none := by
        rw [Token.behind_append, h.state, Option.bind_some, ← h.text]
        simp [Token.run, hadvance]
      have hlonger : mid ++ [c] <+: mid ++ c :: rest := ⟨rest, (List.append_cons mid c rest).symm⟩
      refine ⟨mid, h, List.prefix_append _ _, Option.isSome_of_eq_some h.state,
        fun p hp htaken => ?_⟩
      -- whatever goes beyond `mid` goes through the character refused
      rcases List.prefix_or_prefix_of_prefix hp hlonger with hle | hle
      · refine (List.prefix_concat_iff.mp hle).resolve_left fun heq => ?_
        rw [heq, hrefused] at htaken
        exact Bool.false_ne_true htaken
      · have hsome := Token.isSome_behind_of_begins hle htaken
        rw [hrefused] at hsome
        exact absurd hsome Bool.false_ne_true

end Reading

/-- **Extraction gives the longest lexeme a text begins with**, and it is
recognized if there is one, even an empty one. Its value is decoded from the
state behind exactly its characters, though the token may have taken more.
Otherwise it covers what the token has taken. -/
theorem extract_longest (token : Token σ) (reserved : Option Reserved) (e : Encoding)
    (source : List Char) :
    ∃ l, extract token source reserved e = .ok l
      ∧ (l.isRecognized = true
          ↔ ∃ p, p <+: source ∧ token.accepts reserved (p.map toAscii) = true)
      ∧ (l.isRecognized = true → ∃ p s,
          LongestBeginning (fun p => token.accepts reserved (p.map toAscii) = true) source p
            ∧ token.run (token.fresh reserved) [] (p.map toAscii) = some s
            ∧ l = ⟨0, e.size p, 1, 0, p.map toAscii, token.decode s (p.map toAscii),
                some token.tag⟩)
      ∧ (l.isRecognized = false → ∃ p,
          LongestBeginning (fun p =>
              (token.run (token.fresh reserved) [] (p.map toAscii)).isSome = true) source p
            ∧ l = ⟨0, e.size p, 1, 0, p.map toAscii, none, none⟩) := by
  obtain ⟨taken, hknows, hlongest⟩ := (Reading.knows_start token reserved e).run source
  rw [List.nil_append] at hlongest
  -- a lexeme at the beginning has been taken whole
  have hwithin : ∀ p, p <+: source → token.reads reserved p = true → p <+: taken := by
    intro p hp hreads
    obtain ⟨s, hs, -⟩ := Token.reads_iff.mp hreads
    exact hlongest.longest p hp (Option.isSome_of_eq_some hs)
  unfold extract Reading.lexeme
  cases hbest : ((Reading.start token reserved).run token e source).best with
  | none =>
    refine ⟨_, rfl, ⟨nofun, fun ⟨p, hp, hreads⟩ => ?_⟩, nofun, fun _ => ⟨taken, hlongest, ?_⟩⟩
    · exact absurd hreads (hknows.best_none hbest p (hwithin p hp hreads))
    · rw [hknows.text, hknows.stop]
  | some best =>
    obtain ⟨n, stop, s⟩ := best
    obtain ⟨p, hp, rfl, rfl, hs⟩ := hknows.best_some n stop s hbest
    obtain ⟨s', hs', hvalid⟩ := Token.reads_iff.mp hp.holds
    obtain rfl : s = s' := Option.some.inj (hs.symm.trans hs')
    have htext : ((Reading.start token reserved).run token e source).text.take p.length
        = p.map toAscii := by
      obtain ⟨rest, rfl⟩ := hp.begins
      rw [hknows.text, ← List.map_take, List.take_left]
    have hsource := hp.begins.trans hlongest.begins
    simp only [htext, Token.decode?_eq hvalid, bind, Except.bind]
    refine ⟨_, rfl, ⟨fun _ => ⟨p, hsource, hp.holds⟩, fun _ => rfl⟩, fun _ => ⟨p, s, ?_, hs, rfl⟩,
      nofun⟩
    exact ⟨hsource, hp.holds, fun q hq hreads => hp.longest q (hwithin q hq hreads) hreads⟩

end Lexing
