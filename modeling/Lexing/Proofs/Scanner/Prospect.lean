import Lexing.Proofs.Scanner.Stage

/-!
# What candidates will come to

A candidate that is fed a text to the end, or to the first character it
refuses, comes to the longest lexeme it has passed through. That can be said
beforehand (`Candidate.outcome`), and reading the text does not change it: at
every step the lexemes that wait, together with those that the candidates will
still come to, are the same (`Bucket.Sees.prospects_offered`).
-/

namespace Lexing

variable {σ : Type}

open Tokenizer

namespace Candidate

variable {x y : Candidate σ} {text rest : List Char} {c : Char}

/-- The lexeme that a candidate behind `text` comes to on what follows: its
length, and the state there. -/
def outcome (x : Candidate σ) (text : List Char) : List Char → Option (Nat × σ)
  | [] => x.settled text
  | c :: rest =>
    match x.advance? text c with
    | some y => y.outcome (text ++ [c]) rest
    | none => x.settled text

/-- How many characters a candidate behind `text` has taken in the end. -/
def reach (x : Candidate σ) (text : List Char) : List Char → Nat
  | [] => text.length
  | c :: rest =>
    match x.advance? text c with
    | some y => y.reach (text ++ [c]) rest
    | none => text.length

theorem outcome_cons_of_some (h : x.advance? text c = some y) :
    x.outcome text (c :: rest) = y.outcome (text ++ [c]) rest := by
  rw [outcome, h]

theorem outcome_cons_of_none (h : x.advance? text c = none) :
    x.outcome text (c :: rest) = x.settled text := by
  rw [outcome, h]

theorem reach_cons_of_some (h : x.advance? text c = some y) :
    x.reach text (c :: rest) = y.reach (text ++ [c]) rest := by
  rw [reach, h]

theorem reach_cons_of_none (h : x.advance? text c = none) :
    x.reach text (c :: rest) = text.length := by
  rw [reach, h]

theorem length_le_reach (x : Candidate σ) (text rest : List Char) :
    text.length ≤ x.reach text rest := by
  induction rest generalizing x text with
  | nil => exact Nat.le_refl _
  | cons c rest ih =>
    cases h : x.advance? text c with
    | none => rw [reach_cons_of_none h]
    | some y =>
      rw [reach_cons_of_some h]
      have := ih y (text ++ [c])
      rw [List.length_append, List.length_singleton] at this
      omega

theorem advance?_token (h : x.advance? text c = some y) : y.token = x.token ∧ y.rank = x.rank := by
  obtain ⟨st, -, rfl⟩ := Option.map_eq_some_iff.1 h
  exact ⟨rfl, rfl⟩

end Candidate

namespace Bucket

/-- The lexeme of the first `n` characters of a text that stands at the start
of a bucket. -/
def placed (b : Bucket σ) (e : Encoding) (whole : List Char) (x : Candidate σ) (n : Nat)
    (st : σ) : Ready :=
  ⟨⟨b.start, b.start + e.size (whole.take n), b.line, b.start - b.lineStart,
    (whole.map toAscii).take n, x.token.decode st ((whole.map toAscii).take n),
    some x.token.tag⟩, some x.rank⟩

/-- What a candidate that has seen `mid` comes to on `rest`. -/
def prospect (b : Bucket σ) (e : Encoding) (mid rest : List Char) (x : Candidate σ) : List Ready :=
  ((x.outcome (mid.map toAscii) (rest.map toAscii)).map fun (n, st) =>
    b.placed e (mid ++ rest) x n st).toList

end Bucket

/-! ## Policies that drop nothing inside a lexeme -/

/-- Every character passes, or is trimmed. -/
def PolicyTable.OnlyTrims (P : PolicyTable) : Prop :=
  ∀ c, P.get c = .pass ∨ P.get c = .single .trim

/-- The usual policies only trim. -/
theorem onlyTrims_standard : PolicyTable.standard.OnlyTrims := fun c =>
  (show ∀ i : Fin 128, PolicyTable.standard.entries[i] = .pass ∨
    PolicyTable.standard.entries[i] = .single .trim by decide +kernel) (PolicyTable.index c)

section OnlyTrims

variable {e : Encoding} {P : PolicyTable} {o : Nat}

theorem PolicyTable.OnlyTrims.get_eq (h : P.OnlyTrims) (c : Char) :
    (P.get c).disallow = false ∧ (P.get c).ignore = false ∧ (P.get c).terminate = false := by
  obtain hc | hc := h c <;> rw [hc] <;> exact ⟨rfl, rfl, rfl⟩

theorem PolicyTable.OnlyTrims.visible_eq (h : P.OnlyTrims) (text : List Char) :
    P.visible text = text.map toAscii := by
  simp [visible, (h.get_eq _).2.1]

theorem length_trace (h : P.OnlyTrims) (o : Nat) (text : List Char) :
    (trace e P o text).length = text.length := by
  rw [← Signature.length_text, text_trace, h.visible_eq, List.length_map]

/-- Every place of a signature is a place in the text. -/
theorem boundary_trace (h : P.OnlyTrims) (e : Encoding) (o : Nat) (text : List Char) {n : Nat}
    (hn : n ≤ text.length) :
    (trace e P o text).boundary (o + e.size text) n = o + e.size (text.take n) := by
  obtain ⟨front, back, rfl, hfront, hstop⟩ :=
    exists_cut e P o text (by rwa [length_trace h] : n ≤ (trace e P o text).length)
  have hlength : front.length = n := by
    have := congrArg List.length hfront
    rwa [h.visible_eq, List.length_map, List.length_take, Signature.length_text, length_trace h,
      Nat.min_eq_left hn] at this
  rw [hstop, ← hlength, List.take_left]

end OnlyTrims

/-! ## Steps keep the prospects -/

/-- **A bucket sees a text** in a signature: the characters of the text are
those it has seen, and they stand one after the other from its start on. -/
structure Bucket.Sees (b : Bucket σ) (e : Encoding) (s : Signature) (here : Nat)
    (mid : List Char) : Prop where
  text : b.text s = mid.map toAscii
  boundary : ∀ n ≤ mid.length, s.boundary here (b.key + n) = b.start + e.size (mid.take n)

section Prospects

variable {e : Encoding} {P : PolicyTable} {b : Bucket σ} {s : Signature} {o here : Nat}
variable {mid : List Char} {x y : Candidate σ} {c : Char}

/-- A bucket that fits the signature of a text sees the text from its own
place on. -/
theorem sees_of_trace (h : P.OnlyTrims) (hs : s = trace e P o mid) (hhere : here = o + e.size mid)
    (hfits : b.Fits s) : b.Sees e s here (mid.drop b.key) where
  text := by rw [Bucket.text, hs, text_trace, h.visible_eq, List.map_drop]
  boundary n hn := by
    have hkey : b.key < mid.length := by
      have hlt := hfits.key_lt
      rwa [hs, length_trace h] at hlt
    rw [List.length_drop] at hn
    rw [← hfits.start_eq here, hs, hhere, boundary_trace h e o mid (Nat.le_of_lt hkey),
      boundary_trace h e o mid (by omega), List.take_add, Encoding.size_append, Nat.add_assoc]

namespace Bucket.Sees

/-- What a candidate yields is what it has settled for, at its place. -/
theorem yield_eq (h : b.Sees e s here mid) (hfits : b.Fits s) (hx : x ∈ b.live)
    (rest : List Char) :
    b.yield s here x = ((x.settled (mid.map toAscii)).map fun (n, st) =>
      b.placed e (mid ++ rest) x n st).toList := by
  have hlength := congrArg List.length h.text
  rw [Bucket.length_text, List.length_map] at hlength
  rw [Bucket.yield, h.text]
  cases hsettled : x.settled (mid.map toAscii) with
  | none => rfl
  | some p =>
    obtain ⟨n, st⟩ := p
    obtain ⟨-, hle, -⟩ := hfits.settled hx (h.text ▸ hsettled)
    have hle : n ≤ mid.length := by omega
    have hstop : s.boundary here (b.key + n) = b.start + e.size ((mid ++ rest).take n) := by
      rw [h.boundary n hle, List.take_append_of_le_length hle]
    have htake : (mid.map toAscii).take n = ((mid ++ rest).map toAscii).take n := by
      rw [List.map_append, List.take_append_of_le_length (by rwa [List.length_map])]
    simp only [Option.map_some, Bucket.lexeme, Bucket.placed, h.text, hstop, htake]

/-- A candidate that refuses a character comes to what it yields. -/
theorem prospect_of_none (h : b.Sees e s here mid) (hfits : b.Fits s) (hx : x ∈ b.live)
    (hrefuse : x.offered (b.text s) (toAscii c) false = none) (rest : List Char) :
    b.prospect e mid (c :: rest) x = b.yield s here x := by
  rw [h.text] at hrefuse
  rw [Bucket.prospect, List.map_cons, Candidate.outcome_cons_of_none hrefuse,
    h.yield_eq hfits hx (c :: rest)]

/-- A candidate that takes a character comes to the same as before. -/
theorem prospect_of_some (h : b.Sees e s here mid)
    (htake : x.offered (b.text s) (toAscii c) false = some y) (rest : List Char) :
    b.prospect e mid (c :: rest) x = b.prospect e (mid ++ [c]) rest y := by
  rw [h.text] at htake
  obtain ⟨htoken, hrank⟩ := Candidate.advance?_token htake
  have hsplit : mid ++ c :: rest = mid ++ [c] ++ rest := by simp
  rw [Bucket.prospect, Bucket.prospect, List.map_cons, Candidate.outcome_cons_of_some htake,
    List.map_append, hsplit]
  simp only [Bucket.placed, htoken, hrank]
  rfl

/-- **A step keeps what the candidates come to**: what it yields, and what
those that go on will come to. -/
theorem prospects_offered (h : b.Sees e s here mid) (hfits : b.Fits s) (c : Char)
    (rest : List Char) (xs : List (Candidate σ)) (hxs : ∀ x ∈ xs, x ∈ b.live) :
    (xs.flatMap (b.prospect e mid (c :: rest))).Perm
      (b.yielded s here (toAscii c) false xs ++
        (b.goingOn s (toAscii c) false xs).flatMap (b.prospect e (mid ++ [c]) rest)) := by
  induction xs with
  | nil => exact List.Perm.refl _
  | cons x xs ih =>
    have ih := ih fun y hy => hxs y (List.mem_cons_of_mem _ hy)
    rw [List.flatMap_cons]
    cases hx : x.offered (b.text s) (toAscii c) false with
    | none =>
      rw [Bucket.yielded_cons_of_none hx, Bucket.goingOn_cons_of_none hx,
        h.prospect_of_none hfits (hxs x List.mem_cons_self) hx rest]
      refine (ih.append_left _).trans ?_
      rw [← List.append_assoc]
      exact List.perm_append_comm.append_right _
    | some y =>
      rw [Bucket.yielded_cons_of_some hx, Bucket.goingOn_cons_of_some hx,
        h.prospect_of_some hx rest, List.flatMap_cons]
      refine (ih.append_left _).trans ?_
      rw [← List.append_assoc, ← List.append_assoc]
      exact List.perm_append_comm.append_right _

/-- At the end of a text the prospects are what the candidates yield. -/
theorem perm_yieldedAtEnd (h : b.Sees e s here mid) (hfits : b.Fits s) :
    (yieldedAtEnd s here b b.live).Perm (b.live.flatMap (b.prospect e mid [])) := by
  have hprospect : b.live.flatMap (b.prospect e mid []) = b.live.flatMap (b.yield s here) :=
    List.flatMap_congr fun x hx => by
      rw [h.yield_eq hfits hx []]
      rfl
  rw [hprospect]
  exact (List.reverse_perm _).flatMap_right _

end Bucket.Sees

end Prospects

end Lexing
