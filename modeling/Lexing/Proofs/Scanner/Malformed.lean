import Lexing.Proofs.Charset.Glyphs
import Lexing.Proofs.Scanner.Cover
import Lexing.Proofs.Scanner.Units
import Lexing.Token.Keyname

/-!
# Scanning malformed units

A scan without interleaving meets no fault on any units. But an unrecognized
lexeme ends where the glyph of its last unit should end, and the next search
starts there. So where that glyph is cut off the lexeme overruns the units that
follow it: at the end of the source it ends behind the source, and elsewhere
the next search misses units that belong to no glyph
(`not_forall_scanUnits_inside`). That is all that malformed units can do.
Every other lexeme ends inside the source, and every unit that leads a glyph is
shown by exactly one lexeme, if its policy lets it and no lexeme overruns it
(`Hears`); so a stream whose glyphs are whole loses nothing, whatever stands
between them (`Hears.of_whole`).
-/

namespace Lexing

variable {σ : Type}

/-! ## Overruns -/

/-- **A lexeme overruns units** that start at an offset: no token made it, and
it ends behind them, where the glyph of the last unit that it shows should end.
With the lexeme stand the characters that it shows and the offsets of their
units. -/
def Overruns (e : Encoding) (o : Nat) (units : List UInt32) (p : Lexeme × Signature) : Prop :=
  p.1.token = none ∧ o + units.length < p.1.stop ∧ ∃ front u back, units = front ++ u :: back ∧
    p.2.getLast? = some (leadToChar u, o + front.length) ∧
    p.1.stop = o + front.length + e.glyphUnits u

/-- A unit behind some others is a unit. -/
theorem exists_split_of_drop {n : Nat} {units front back : List UInt32} {u : UInt32}
    (h : units.drop n = front ++ u :: back) :
    ∃ before, units = before ++ u :: back ∧ before.length = n + front.length := by
  have hn : n ≤ units.length := by
    by_contra hlt
    rw [List.drop_eq_nil_of_le (Nat.le_of_not_le hlt)] at h
    exact absurd h.symm (by simp)
  refine ⟨units.take n ++ front, ?_, ?_⟩
  · rw [List.append_assoc, ← h, List.take_append_drop]
  · rw [List.length_append, List.length_take, Nat.min_eq_left hn]

/-- A lexeme that overruns the last of some units overruns all of them. -/
theorem Overruns.of_drop {e : Encoding} {o n : Nat} {units : List UInt32} {p : Lexeme × Signature}
    (h : Overruns e (o + n) (units.drop n) p) : Overruns e o units p := by
  obtain ⟨htoken, hlt, front, u, back, hsplit, hlast, hstop⟩ := h
  obtain ⟨before, hunits, hbefore⟩ := exists_split_of_drop hsplit
  have hplace : o + n + front.length = o + before.length := by omega
  rw [hplace] at hlast hstop
  rw [List.length_drop] at hlt
  exact ⟨htoken, by omega, before, u, back, hunits, hlast, hstop⟩

/-! ## What a lexeme shows -/

namespace Shows

variable {e : Encoding} {P : PolicyTable} {o : Nat} {l : Lexeme} {units : List UInt32}
  {s : Signature}

theorem text_eq (h : Shows e P o l units s) : l.text = s.text := by
  cases h with
  | seen _ _ htext => exact htext
  | promised front u _ _ _ htext =>
    rw [htext, Signature.text_append]
    rfl

/-- A lexeme ends at the units it spans, or behind them. -/
theorem le_stop (h : Shows e P o l units s) : o + units.length ≤ l.stop := by
  cases h with
  | seen _ hstop => exact Nat.le_of_eq hstop.symm
  | promised front u hlead _ hstop =>
    rw [hstop, List.length_append, List.length_singleton]
    omega

theorem length_pos (h : Shows e P o l units s) (hne : o < l.stop) : 0 < units.length := by
  cases h with
  | seen _ hstop => omega
  | promised front u => simp

/-- What a lexeme shows stands among the units it spans. -/
theorem within (h : Shows e P o l units s) : s.Within o (o + units.length) := by
  cases h with
  | seen => exact within_heard e P o units
  | promised front u =>
    rw [List.length_append, List.length_singleton, ← Nat.add_assoc]
    exact (within_heard e P o front).snoc _ (Nat.le_add_right _ _)

/-- Whatever it shows is one of the units. -/
theorem exists_unit (h : Shows e P o l units s) {x : Char × Nat} (hx : x ∈ s) :
    ∃ front u back, units = front ++ u :: back ∧ x = (leadToChar u, o + front.length) := by
  cases h with
  | seen =>
    obtain ⟨front, u, back, hsplit, -, rfl⟩ := mem_heard.1 hx
    exact ⟨front, u, back, hsplit, rfl⟩
  | promised front u =>
    obtain hx | hx := List.mem_append.1 hx
    · obtain ⟨before, v, after, rfl, -, rfl⟩ := mem_heard.1 hx
      exact ⟨before, v, after ++ [u], by simp, rfl⟩
    · exact ⟨front, u, [], rfl, List.mem_singleton.1 hx⟩

/-- It shows every unit that is not silent. -/
theorem mem_of_not_silent {front back : List UInt32} {u : UInt32}
    (h : Shows e P o l (front ++ u :: back) s) (hu : ¬Silent e P u) :
    (leadToChar u, o + front.length) ∈ s := by
  generalize hunits : front ++ u :: back = units at h
  cases h with
  | seen => exact mem_heard.2 ⟨front, u, back, hunits.symm, hu, rfl⟩
  | promised most last =>
    obtain rfl | ⟨back, v, rfl⟩ := back.eq_nil_or_concat
    · obtain ⟨rfl, hlast⟩ := List.append_inj' hunits rfl
      obtain rfl := (List.cons.inj hlast).1
      exact List.mem_append_right _ (List.mem_singleton_self _)
    · rw [List.concat_eq_append, ← List.cons_append, ← List.append_assoc] at hunits
      obtain ⟨rfl, -⟩ := List.append_inj' hunits rfl
      exact List.mem_append_left _ (mem_heard.2 ⟨front, u, back, rfl, hu, rfl⟩)

/-- It ends where its units end, or where the glyph of the last one should. -/
theorem stop_cases (h : Shows e P o l units s) : l.stop = o + units.length ∨
    l.token = none ∧ ∃ front u, units = front ++ [u] ∧
      s.getLast? = some (leadToChar u, o + front.length) ∧
      l.stop = o + front.length + e.glyphUnits u := by
  cases h with
  | seen _ hstop => exact .inl hstop
  | promised front u _ htoken hstop =>
    exact .inr ⟨htoken, front, u, rfl, List.getLast?_concat, hstop⟩

/-- So it ends among the units before it and some behind, or it overruns all
of them. -/
theorem le_or_overruns {gap : List UInt32} (h : Shows e P (o + gap.length) l units s)
    (rest : List UInt32) :
    l.stop ≤ o + (gap ++ units ++ rest).length ∨ Overruns e o (gap ++ units ++ rest) (l, s) := by
  obtain hseen | ⟨htoken, front, u, rfl, hlast, hpromised⟩ := h.stop_cases
  · left
    simp only [List.length_append]
    omega
  · obtain hlt | hle := Nat.lt_or_ge (o + (gap ++ (front ++ [u]) ++ rest).length) l.stop
    case inr => exact .inl hle
    case inl =>
      have hplace : o + gap.length + front.length = o + (gap ++ front).length := by
        rw [List.length_append, Nat.add_assoc]
      rw [hplace] at hlast hpromised
      exact .inr ⟨htoken, hlt, gap ++ front, u, rest, by simp, hlast, hpromised⟩

end Shows

/-! ## What the lexemes of a scan show -/

/-- **Lexemes hear units** that start at an offset: `told` holds each lexeme
with the characters that it shows and the offsets of their units. -/
structure Hears (e : Encoding) (P : PolicyTable) (o : Nat) (units : List UInt32)
    (told : List (Lexeme × Signature)) : Prop where
  /-- each lexeme shows its characters, which stand in its span -/
  shows : ∀ p ∈ told, p.1.text = p.2.text ∧ p.2.Within p.1.start p.1.stop
  /-- no unit is shown twice -/
  within : Signature.Within (told.flatMap Prod.snd) o (o + units.length)
  /-- whatever is shown is one of the units -/
  exists_unit : ∀ x ∈ told.flatMap Prod.snd, ∃ front u back, units = front ++ u :: back ∧
    x = (leadToChar u, o + front.length)
  /-- every unit is shown that may not stand between lexemes, unless a lexeme
  overruns the units before it -/
  keeps : ∀ front u back, units = front ++ u :: back → ¬Passes e P u →
    (leadToChar u, o + front.length) ∈ told.flatMap Prod.snd ∨ ∃ p ∈ told, Overruns e o front p
  /-- each lexeme starts at one of the units -/
  starts : ∀ p ∈ told, o ≤ p.1.start ∧ p.1.start < o + units.length
  /-- it ends inside, unless it overruns all units -/
  stops : ∀ p ∈ told, p.1.stop ≤ o + units.length ∨ Overruns e o units p

namespace Hears

variable {e : Encoding} {P : PolicyTable} {o : Nat} {gap mid rest units : List UInt32}
  {l : Lexeme} {s : Signature} {told : List (Lexeme × Signature)}

/-- Units that may stand between lexemes need none. -/
theorem nil (h : ∀ u ∈ units, Passes e P u) : Hears e P o units [] where
  shows := List.forall_mem_nil _
  within := Signature.within_nil _ _
  exists_unit := List.forall_mem_nil _
  keeps front u back hunits hu := (hu (h u (by simp [hunits]))).elim
  starts := List.forall_mem_nil _
  stops := List.forall_mem_nil _

/-- A lexeme behind a gap, and then what hears the units from its end on. -/
theorem cons (hgap : ∀ u ∈ gap, Passes e P u) (hstart : l.start = o + gap.length)
    (hshows : Shows e P (o + gap.length) l mid s) (hne : l.start < l.stop) {n : Nat}
    (hstop : l.stop = o + n)
    (h : Hears e P l.stop ((gap ++ mid ++ rest).drop n) told) :
    Hears e P o (gap ++ mid ++ rest) ((l, s) :: told) := by
  have hspan := hshows.within
  have hend := hshows.le_stop
  have hmid : 0 < mid.length := hshows.length_pos (hstart ▸ hne)
  have hlength : (gap ++ mid ++ rest).length = gap.length + mid.length + rest.length := by
    simp only [List.length_append]
  have hdrop : ((gap ++ mid ++ rest).drop n).length = (gap ++ mid ++ rest).length - n :=
    List.length_drop
  constructor
  case shows =>
    refine List.forall_mem_cons.2 ⟨⟨hshows.text_eq, ?_⟩, h.shows⟩
    rw [hstart]
    exact hspan.mono hend
  case within =>
    have hfirst : s.Within o l.stop :=
      ⟨hspan.increasing, fun x hx => Nat.le_trans (Nat.le_add_right _ _) (hspan.floor_le x hx),
        fun x hx => Nat.lt_of_lt_of_le (hspan.lt_stop x hx) hend⟩
    have hlater : Signature.Within (told.flatMap Prod.snd) l.stop
        (o + (gap ++ mid ++ rest).length) :=
      ⟨h.within.increasing, h.within.floor_le, fun x hx => by
        have hfloor := h.within.floor_le x hx
        have hceil := h.within.lt_stop x hx
        omega⟩
    rw [List.flatMap_cons]
    refine hfirst.append hlater (by omega) fun x hx => ?_
    have hceil := hspan.lt_stop x hx
    omega
  case exists_unit =>
    rw [List.flatMap_cons]
    refine List.forall_mem_append.2 ⟨fun x hx => ?_, fun x hx => ?_⟩
    · obtain ⟨front, u, back, rfl, rfl⟩ := hshows.exists_unit hx
      refine ⟨gap ++ front, u, back ++ rest, by simp, ?_⟩
      rw [List.length_append, Nat.add_assoc]
    · obtain ⟨front, u, back, hsplit, rfl⟩ := h.exists_unit x hx
      obtain ⟨before, hunits, hbefore⟩ := exists_split_of_drop hsplit
      refine ⟨before, u, back, hunits, ?_⟩
      rw [hbefore, hstop, Nat.add_assoc]
  case keeps =>
    intro front u back hsplit hu
    rw [List.flatMap_cons]
    obtain ⟨b, hfront⟩ | ⟨a, b, rfl, rfl⟩ | ⟨a, rfl, hrest⟩ := Covers.split_cases hsplit
    · exact absurd (hgap u (by simp [hfront])) hu
    · rw [List.length_append, ← Nat.add_assoc]
      exact .inl (List.mem_append_left _
        (hshows.mem_of_not_silent fun hsilent => hu (.inl hsilent)))
    · -- the next search reads the unit, if the lexeme does not overrun it
      obtain hle | hover := hshows.le_or_overruns a
      · have hread : n ≤ (gap ++ mid ++ a).length := by omega
        have hback : (gap ++ mid ++ rest).drop n = (gap ++ mid ++ a).drop n ++ u :: back := by
          rw [hrest, ← List.append_assoc, List.drop_append_of_le_length hread]
        have hplace : l.stop + ((gap ++ mid ++ a).drop n).length
            = o + (gap ++ mid ++ a).length := by
          rw [List.length_drop]
          omega
        refine (h.keeps _ u back hback hu).imp (fun hmem => ?_) fun ⟨k, hk, hover⟩ => ?_
        · exact List.mem_append_right _ (hplace ▸ hmem)
        · rw [hstop] at hover
          exact ⟨k, List.mem_cons_of_mem _ hk, hover.of_drop⟩
      · exact .inr ⟨(l, s), List.mem_cons_self, hover⟩
  case starts =>
    refine List.forall_mem_cons.2 ⟨?_, fun k hk => ?_⟩
    · show o ≤ l.start ∧ l.start < _
      omega
    · have hk := h.starts k hk
      omega
  case stops =>
    refine List.forall_mem_cons.2 ⟨hshows.le_or_overruns rest, fun k hk => ?_⟩
    have hkstart := h.starts k hk
    refine (h.stops k hk).imp (fun hle => by omega) fun hover => ?_
    rw [hstop] at hover
    exact hover.of_drop

/-- **Only glyphs that are cut off do harm.** If as many units that lead
nothing follow each lead unit as it announces, then every lexeme ends inside,
and every unit is shown that may not stand between lexemes. -/
theorem of_whole (h : Hears e P o units told)
    (hwhole : ∀ front u back, units = front ++ u :: back → ∃ conts rest, back = conts ++ rest ∧
      e.glyphUnits u ≤ conts.length + 1 ∧ ∀ v ∈ conts, e.glyphUnits v = 0) :
    (∀ p ∈ told, p.1.stop ≤ o + units.length) ∧ ∀ front u back, units = front ++ u :: back →
      ¬Passes e P u → (leadToChar u, o + front.length) ∈ told.flatMap Prod.snd := by
  refine ⟨fun p hp => ?_, fun front u back hsplit hu => ?_⟩
  · obtain hle | ⟨-, hlt, front, u, back, rfl, -, hstop⟩ := h.stops p hp
    · exact hle
    · obtain ⟨conts, rest, rfl, hfits, -⟩ := hwhole front u back rfl
      simp only [List.length_append, List.length_cons] at hlt
      omega
  · obtain hmem | ⟨p, -, -, hlt, before, v, after, rfl, -, hstop⟩ := h.keeps front u back hsplit hu
    · exact hmem
    · -- a unit that leads a glyph is none of those that continue the glyph before it
      rw [List.append_assoc, List.cons_append] at hsplit
      obtain ⟨conts, rest, hback, hfits, hconts⟩ := hwhole before v _ hsplit
      simp only [List.length_append, List.length_cons] at hlt
      have hmem : u ∈ conts := by
        obtain ⟨b, rfl, hrest⟩ | ⟨b, rfl, -⟩ := List.append_eq_append_iff.1 hback
        · cases b with
          | nil =>
            rw [List.append_nil] at hfits
            omega
          | cons w b =>
            obtain rfl := (List.cons.inj hrest).1
            simp
        · rw [List.length_append] at hlt
          omega
      exact absurd (.inl (.inl (hconts u hmem))) hu

end Hears

open Tokenizer

/-- The lexemes of a scan without interleaving hear its units. -/
theorem Committed.hears {e : Encoding} {P : PolicyTable} {o : Nat} {t : Tokenizer σ}
    {units : List UInt32} {lexemes : List Lexeme} (h : Committed t units lexemes)
    (hfresh : t.Fresh) (hplaced : t.Placed o) (hposition : t.position = o) (he : t.encoding = e)
    (hpolicies : t.policies = P) (hmode : t.mode.interleaved = false) :
    ∃ told, lexemes = told.map Prod.fst ∧ Hears e P o units told := by
  induction h generalizing o with
  | done hsearch hnone =>
    have htaken := hsearch.takenFrom (.of_fresh hfresh) hplaced he hpolicies hmode hposition
    exact ⟨[], rfl, .nil (htaken.1 (first?_eq_none_iff.1 hnone))⟩
  | @commit t v _ r n rest hsearch hfirst hstop _ ih =>
    have htaken := hsearch.takenFrom (.of_fresh hfresh) hplaced he hpolicies hmode hposition
    have hsetup := hsearch.setupAs
    have hv := hsearch.placed hplaced
    obtain ⟨gap, mid, rest', s, hsplit, hgap, hstart, hshows⟩ := htaken.2 r (mem_of_first? hfirst)
    have hne := (hv.held.results r (mem_of_first? hfirst)).nonempty
    -- the next search starts where the lexeme ends, even where it overruns what was read
    obtain ⟨told, rfl, hrest⟩ := ih (fresh_rewind v _)
      (placed_rewind hv.lines _ (Nat.le_trans hv.lines.origin_le (by omega))) rfl
      (hsetup.encoding.trans he) (hsetup.policies.trans hpolicies)
      ((congrArg Mode.interleaved hsetup.mode).trans hmode)
    obtain rfl := hsplit
    exact ⟨(r.lexeme, s) :: told, rfl, hrest.cons hgap hstart hshows hne (hposition ▸ hstop)⟩

/-- **Malformed units do no harm but by overruns**, whatever the units, the
encoding, the policies and the tokens are: a scan without interleaving
succeeds, each lexeme it commits ends inside the source or overruns it, and
each ASCII unit whose policy has neither of the flags that drop it is shown by
exactly one lexeme or overrun by one. -/
theorem scanUnits_hears (tokens : List (Token σ)) (config : TokenizerConfig)
    (reserved : Option Reserved) (policies : PolicyTable) (units : List UInt32)
    (hmode : config.interleaved = false) :
    ∃ told s',
      (Scanner.ofTokens tokens config reserved policies).scanUnits units
        = .ok (told.map Prod.fst, s') ∧
      Hears config.encoding policies config.offset units told ∧
      ∀ front u back, units = front ++ u :: back → u < 0x80 →
        (policies.get (leadToChar u)).trim = false → (policies.get (leadToChar u)).ignore = false →
        (leadToChar u, config.offset + front.length) ∈ told.flatMap Prod.snd ∨
          ∃ p ∈ told, Overruns config.encoding config.offset front p := by
  obtain ⟨lexemes, s', hscan, hcommitted⟩ := Scanner.scanUnits_total tokens config reserved policies
    units
  have hplaced := Scanner.placed_ofTokens tokens config reserved policies
  obtain ⟨told, rfl, hhears⟩ : ∃ told, lexemes = told.map Prod.fst ∧
      Hears config.encoding policies config.offset units told :=
    hcommitted.hears ⟨rfl, rfl, rfl⟩ hplaced rfl rfl rfl hmode
  refine ⟨told, s', hscan, hhears, fun front u back hsplit hu htrim hignore => ?_⟩
  have hlead : config.encoding.glyphUnits u = 1 :=
    Encoding.glyphUnits_of_ascii (UInt32.lt_iff_toNat_lt.1 hu) _
  exact hhears.keeps front u back hsplit (by simp [Passes, Silent, hlead, htrim, hignore])

/-- A lead byte whose glyph is cut off by a letter overruns two letters; the
next one is shown. -/
theorem scanUnits_hears_cutOff : ({} : TokenizerConfig).interleaved = false ∧
    ∃ told s', (Scanner.ofTokens [(Token.keyname 0).toToken] {} none .standard).scanUnits
        [0xe4, 0x61, 0x62, 0x63] = .ok (told.map Prod.fst, s') ∧
      Hears .utf8 .standard 0 [0xe4, 0x61, 0x62, 0x63] told ∧
      ('c', 3) ∈ told.flatMap Prod.snd := by
  refine ⟨rfl, ?_⟩
  obtain ⟨told, s', hscan, hhears, hascii⟩ := scanUnits_hears [(Token.keyname 0).toToken]
    {} none .standard [0xe4, 0x61, 0x62, 0x63] rfl
  refine ⟨told, s', hscan, hhears, ?_⟩
  have hends : ((Scanner.ofTokens [(Token.keyname 0).toToken] {} none .standard).scanUnits
      [0xe4, 0x61, 0x62, 0x63]).toOption.map (·.1.all fun l => l.isRecognized || l.stop ≤ 3)
        = some true := by
    decide +kernel
  rw [hscan] at hends
  -- the only lexeme that overruns anything ends before the letter
  obtain hmem | ⟨p, hp, htoken, hlt, -⟩ := hascii [0xe4, 0x61, 0x62] 0x63 [] rfl (by decide)
    (by decide +kernel) (by decide +kernel)
  · exact hmem
  · have hstop := List.all_eq_true.1 (Option.some.inj hends) p.1 (List.mem_map_of_mem hp)
    rw [Lexeme.isRecognized, htoken, Option.isSome_none, Bool.false_or, decide_eq_true_iff] at hstop
    exact absurd hlt (Nat.not_lt.2 hstop)

/-- A glyph that is cut off by the end lets a lexeme end behind the source, and
one that is cut off by a letter hides the letter from every lexeme. -/
theorem not_forall_scanUnits_inside :
    (∃ lexemes s', (Scanner.ofTokens [(Token.keyname 0).toToken] {} none .standard).scanUnits
        [0xc3] = .ok (lexemes, s') ∧ ¬∀ l ∈ lexemes, l.stop ≤ 0 + [0xc3].length) ∧
      ∃ lexemes s', (Scanner.ofTokens [(Token.keyname 0).toToken] {} none .standard).scanUnits
          [0xc3, 0x61] = .ok (lexemes, s') ∧ ¬∃ l ∈ lexemes, 'a' ∈ l.text := by
  have hstops : ((Scanner.ofTokens [(Token.keyname 0).toToken] {} none .standard).scanUnits
      [0xc3]).toOption.map (·.1.map Lexeme.stop) = some [2] := by
    decide +kernel
  have htexts : ((Scanner.ofTokens [(Token.keyname 0).toToken] {} none .standard).scanUnits
      [0xc3, 0x61]).toOption.map (·.1.map Lexeme.text) = some [[substitute]] := by
    decide +kernel
  constructor
  · obtain ⟨lexemes, s', hscan, -⟩ := Scanner.scanUnits_total [(Token.keyname 0).toToken] {} none
      .standard [0xc3]
    rw [hscan] at hstops
    obtain ⟨l, rfl, hstop⟩ := List.map_eq_singleton_iff.1 (Option.some.inj hstops)
    refine ⟨[l], s', hscan, fun hinside => ?_⟩
    have hle := hinside l (List.mem_singleton_self l)
    rw [hstop] at hle
    exact absurd hle (by decide)
  · obtain ⟨lexemes, s', hscan, -⟩ := Scanner.scanUnits_total [(Token.keyname 0).toToken] {} none
      .standard [0xc3, 0x61]
    rw [hscan] at htexts
    obtain ⟨l, rfl, htext⟩ := List.map_eq_singleton_iff.1 (Option.some.inj htexts)
    refine ⟨[l], s', hscan, fun ⟨k, hk, hmem⟩ => ?_⟩
    rw [List.mem_singleton.1 hk, htext, List.mem_singleton] at hmem
    exact absurd hmem (by decide)

end Lexing
