import Lexing.Generate
import Lexing.Proofs.Token.Whole
import Lexing.Token.Fixed
import Lexing.Token.Keyname
import Lexing.Token.Machine

/-!
# Generated lexemes are extracted again

A generator draws its next character from those it holds possible, while its
token decides about a character that is given. Where every character that may
be proposed is accepted, with the same state behind it (`Faithful`), a text
being generated is one the token has accepted all along, and a complete one is
extracted as exactly the lexeme that was generated (`Faithful.readsBack`).

Identifiers, single characters and fixed texts are generated in that way. Of a
token given by a state table it can be said if no character can enter two of its
targets that are open together.
-/

namespace Lexing

variable {σ : Type}

theorem Draws.mem_of_choose {α : Type} {draws : Draws} {items : List α} {x : α}
    (h : (draws.choose items).1 = some x) : x ∈ items := by
  cases items with
  | nil => exact nomatch h
  | cons a items => exact List.mem_of_getElem? h

/-- **A faithful generator**: behind every text that its token has accepted, it
proposes only ASCII characters that the token accepts, with the state that the
token has behind them. -/
def Faithful (g : Generator σ) (reserved : Option Reserved) : Prop :=
  ∀ (s : σ) (text : List Char), g.run (g.fresh reserved) [] text = some s →
    ∀ (draws : Draws) (c : Char) (s' : σ), (g.propose s text draws).1 = some (c, s') →
      g.advance s text c = some s' ∧ c.toNat < 0x80

/-- A draft that the token has accepted. -/
structure Draft.Accepted (g : Generator σ) (reserved : Option Reserved) (d : Draft σ) : Prop where
  run : g.run (g.fresh reserved) [] d.text = some d.state
  ascii : IsAscii d.text

/-- **What every proposal keeps, a draft keeps** as it grows. -/
theorem Draft.extend_induction {g : Generator σ} {P : σ → List Char → Prop}
    (hstep : ∀ s text draws c s', P s text → (g.propose s text draws).1 = some (c, s') →
      P s' (text ++ [c]))
    (wanted : σ → List Char → Bool) (fuel : Nat) {d : Draft σ} (hd : P d.state d.text) :
    P (extend g wanted fuel d).state (extend g wanted fuel d).text := by
  induction fuel generalizing d with
  | zero => exact hd
  | succ fuel ih =>
    rw [Draft.extend]
    split_ifs
    · split
      next draws _ => exact hd
      next c s' draws hpropose =>
        exact ih (hstep _ _ d.draws c s' hd (congrArg Prod.fst hpropose))
    · exact hd

/-- **A draft stays accepted** as it grows. -/
theorem Faithful.extend {g : Generator σ} {reserved : Option Reserved} (hg : Faithful g reserved)
    (wanted : σ → List Char → Bool) (fuel : Nat) {d : Draft σ} (hd : d.Accepted g reserved) :
    (Draft.extend g wanted fuel d).Accepted g reserved := by
  have hkept := Draft.extend_induction
    (P := fun s text => g.run (g.fresh reserved) [] text = some s ∧ IsAscii text)
    (fun s text draws c s' ⟨hrun, htext⟩ hpropose => by
      obtain ⟨hadvance, hc⟩ := hg s text hrun draws c s' hpropose
      refine ⟨?_, isAscii_append.mpr ⟨htext, isAscii_cons.mpr ⟨hc, isAscii_nil⟩⟩⟩
      rw [Token.run_snoc, hrun]
      exact hadvance) wanted fuel ⟨hd.run, hd.ascii⟩
  exact ⟨hkept.1, hkept.2⟩

/-- The lexeme that a draft has come to. -/
def Draft.lexeme (g : Generator σ) (d : Draft σ) : Lexeme :=
  if g.isValid d.state d.text then
    ⟨0, Text.byteLength d.text, 1, 0, d.text, g.decode d.state d.text, some g.tag⟩
  else ⟨0, Text.byteLength d.text, 1, 0, d.text, none, none⟩

/-- **Generating never fails**: a draft is extended twice, and what it has come
to is a lexeme. -/
theorem exists_generate_eq (g : Generator σ) (reserved : Option Reserved) (low high : Nat)
    (draws : Draws) :
    ∃ short incomplete draws' d, d = Draft.extend g incomplete maxGenerated
        (Draft.extend g short maxGenerated ⟨g.fresh reserved, [], draws'⟩)
      ∧ generate g reserved low high draws = .ok (d.lexeme g, d.draws) := by
  refine ⟨fun _ text => Text.byteLength text < min (drawLength draws low high).1 maxGenerated,
    fun s text => !g.isValid s text && Text.byteLength text < maxGenerated,
    (drawLength draws low high).2, _, rfl, ?_⟩
  rw [generate]
  dsimp only
  split_ifs with hvalid
  · rw [Token.decode?_eq hvalid, Draft.lexeme, if_pos hvalid]
    rfl
  · rw [Draft.lexeme, if_neg hvalid]
    rfl

/-- What a faithful generator comes to is a draft that its token has accepted. -/
theorem Faithful.exists_draft {g : Generator σ} {reserved : Option Reserved}
    (hg : Faithful g reserved) (low high : Nat) (draws : Draws) :
    ∃ d : Draft σ, d.Accepted g reserved
      ∧ generate g reserved low high draws = .ok (d.lexeme g, d.draws) := by
  obtain ⟨short, incomplete, draws', d, rfl, hgenerate⟩ :=
    exists_generate_eq g reserved low high draws
  have hfresh : Draft.Accepted g reserved ⟨g.fresh reserved, [], draws'⟩ := ⟨rfl, isAscii_nil⟩
  exact ⟨_, hg.extend _ maxGenerated (hg.extend _ maxGenerated hfresh), hgenerate⟩

/-- **Generated lexemes read back unchanged**: generating always comes to a
lexeme, and if it is recognized, extraction from its text gives it again. -/
def ReadsBack (g : Generator σ) (reserved : Option Reserved) : Prop :=
  ∀ (low high : Nat) (draws : Draws), ∃ l rest,
    generate g reserved low high draws = .ok (l, rest)
      ∧ (l.isRecognized = true → extract g.toToken l.text reserved .utf8 = .ok l
          ∧ l.start = 0 ∧ l.stop = Text.byteLength l.text)

theorem Faithful.readsBack {g : Generator σ} {reserved : Option Reserved}
    (hg : Faithful g reserved) : ReadsBack g reserved := by
  intro low high draws
  obtain ⟨d, hd, hgenerate⟩ := hg.exists_draft low high draws
  refine ⟨_, _, hgenerate, ?_⟩
  rw [Draft.lexeme]
  split_ifs with hvalid
  · intro _
    refine ⟨?_, rfl, rfl⟩
    rw [extract_eq_of_run g.toToken .utf8 hd.ascii hd.run hvalid, byteLength_of_ascii hd.ascii]
  · exact nofun

/-! ## Tokens given by a table -/

/-- **What a table proposes** enters a target that is open. -/
theorem Machine.exists_of_propose {ι : Type} {m : Machine ι σ} {s s' : σ} {text : List Char}
    {draws : Draws} {c : Char} (h : (m.propose s text draws).1 = some (c, s')) :
    ∃ target ∈ m.openTargets s, m.canEnter target s text c = true
      ∧ m.enter target s text c = s' ∧ c ∈ m.entryChars target s := by
  unfold Machine.propose at h
  dsimp only at h
  split at h
  next => exact nomatch h
  next target htarget =>
    split at h
    next => exact nomatch h
    next d hd =>
      dsimp only at h
      split_ifs at h with henter
      obtain ⟨rfl, rfl⟩ := Prod.mk.inj (Option.some.inj h)
      exact ⟨target, Draws.mem_of_choose htarget, henter, rfl, Draws.mem_of_choose hd⟩

/-! ## Tokens without a table -/

/-- **Identifiers are generated faithfully**: the characters drawn are those
that may stand at their place. -/
theorem faithful_keyname (id : Nat) (reserved : Option Reserved) :
    Faithful (Token.keyname id) reserved := by
  intro s text _ draws c s' hpropose
  have hpropose : (draws.choose (Token.identChars (text = []))).1.map (fun c => (c, s))
      = some (c, s') := hpropose
  obtain ⟨c', hchoose, heq⟩ := Option.map_eq_some_iff.mp hpropose
  obtain ⟨rfl, rfl⟩ := Prod.mk.inj heq
  have hmem := Draws.mem_of_choose hchoose
  have hfirst : (Token.identChars true).all fun c => isIdentStart c && c.toNat < 0x80 := by
    decide +kernel
  have hother : (Token.identChars false).all fun c => isIdentContinue c && c.toNat < 0x80 := by
    decide +kernel
  by_cases hnil : text = []
  · have hc := List.all_eq_true.mp hfirst c' (by simpa [hnil] using hmem)
    rw [Bool.and_eq_true, decide_eq_true_eq] at hc
    exact ⟨by simp [Token.keyname, hnil, hc.1], hc.2⟩
  · have hc := List.all_eq_true.mp hother c' (by simpa [hnil] using hmem)
    rw [Bool.and_eq_true, decide_eq_true_eq] at hc
    exact ⟨by simp [Token.keyname, hnil, hc.1], hc.2⟩

/-- **One character is generated faithfully**, if it is ASCII. -/
theorem faithful_char (id : Nat) {c : Char} (hc : c.toNat < 0x80) (reserved : Option Reserved) :
    Faithful (Token.char id c) reserved := by
  intro s text _ draws d s' hpropose
  have hpropose : (if text = [] then some (c, ()) else none) = some (d, s') := hpropose
  split_ifs at hpropose with hnil
  obtain ⟨rfl, rfl⟩ := Prod.mk.inj (Option.some.inj hpropose)
  exact ⟨if_pos ⟨hnil, rfl⟩, hc⟩

/-- **A fixed text is generated faithfully**, if it is ASCII. -/
theorem faithful_fixed {id : Nat} {content : List Char} {g : Generator Unit}
    (h : Token.fixed id content = .ok g) (hcontent : IsAscii content)
    (reserved : Option Reserved) : Faithful g reserved := by
  unfold Token.fixed at h
  split_ifs at h
  obtain rfl := Except.ok.inj h
  intro s text _ draws c s' hpropose
  obtain ⟨c', hget, heq⟩ := Option.map_eq_some_iff.mp hpropose
  obtain ⟨rfl, rfl⟩ := Prod.mk.inj heq
  exact ⟨if_pos hget, hcontent c' (List.mem_of_getElem? hget)⟩

end Lexing
