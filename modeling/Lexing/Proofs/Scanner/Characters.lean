import Lexing.Proofs.Charset.Glyphs
import Lexing.Proofs.Scanner.Scan

/-!
# Searching character by character

On the units of a text a search need only be followed from one character to
the next: the lead unit of a glyph treats the character, and the tokenizer
passes over the other units (`Searched.text`).
-/

namespace Lexing

variable {σ : Type}

/-- How many units a text takes. -/
def Encoding.size (e : Encoding) : List Char → Nat
  | [] => 0
  | c :: text => e.unitLen c + e.size text

namespace Encoding

variable (e : Encoding)

@[simp] theorem size_nil : e.size [] = 0 := rfl

@[simp] theorem size_cons (c : Char) (text : List Char) :
    e.size (c :: text) = e.unitLen c + e.size text := rfl

@[simp] theorem size_append (xs ys : List Char) : e.size (xs ++ ys) = e.size xs + e.size ys := by
  induction xs with
  | nil => exact (Nat.zero_add _).symm
  | cons c xs ih => rw [List.cons_append, size_cons, size_cons, ih, Nat.add_assoc]

/-- A character behind a text stands where the text ends. -/
theorem add_size_snoc (o : Nat) (text : List Char) (c : Char) :
    o + e.size (text ++ [c]) = o + e.size text + e.unitLen c := by
  rw [size_append, size_cons, size_nil, Nat.add_zero, Nat.add_assoc]

theorem length_flatMap_encodeChar (text : List Char) :
    (text.flatMap e.encodeChar).length = e.size text := by
  induction text with
  | nil => rfl
  | cons c text ih =>
    rw [List.flatMap_cons, List.length_append, length_encodeChar, ih, size_cons]

/-- Dropping the units of some characters leaves those of the others. -/
theorem drop_flatMap_encodeChar (xs ys : List Char) :
    ((xs ++ ys).flatMap e.encodeChar).drop (e.size xs) = ys.flatMap e.encodeChar := by
  rw [List.flatMap_append, ← length_flatMap_encodeChar, List.drop_left]

/-- The units of a character: one leads its glyph, and the others nothing. -/
theorem exists_glyph (c : Char) : ∃ lead conts, e.encodeChar c = lead :: conts ∧ e.Leads lead c ∧
    conts.length = e.unitLen c - 1 ∧ ∀ u ∈ conts, e.glyphUnits u = 0 := by
  obtain ⟨lead, conts, hunits, hlead, hconts⟩ := e.isGlyph_encodeChar c
  refine ⟨lead, conts, hunits, hlead, ?_, hconts⟩
  rw [← e.length_encodeChar c, hunits, List.length_cons, Nat.add_sub_cancel]

theorem size_pos_of_ne_nil {text : List Char} (h : text ≠ []) : 0 < e.size text := by
  obtain ⟨c, rest, rfl⟩ := List.exists_cons_of_ne_nil h
  have := e.unitLen_pos c
  rw [size_cons]
  omega

end Encoding

namespace Tokenizer

variable {t v : Tokenizer σ}

/-- The tokenizer behind some units that lead nothing. -/
def passedOver (t : Tokenizer σ) (n : Nat) : Tokenizer σ :=
  { t with
    position := t.position + n
    signature := if t.active.isEmpty && n != 0 then [] else t.signature }

theorem passedOver_zero (t : Tokenizer σ) : t.passedOver 0 = t := by
  simp [passedOver]

theorem step_passedOver (t : Tokenizer σ) (n : Nat) :
    t.step.passedOver n = t.passedOver (n + 1) := by
  rw [passedOver, passedOver]
  cases h : t.active.isEmpty <;> simp [step, h, Nat.add_comm, Nat.add_left_comm]

theorem Placed.passedOver {floor : Nat} (h : t.Placed floor) (n : Nat) :
    (t.passedOver n).Placed floor := by
  induction n generalizing t with
  | zero => rwa [passedOver_zero]
  | succ n ih =>
    rw [← step_passedOver]
    exact ih h.step

/-- Behind a character that did not end a search its whole glyph is passed. -/
theorem Treated.position_passedOver {u : Tokenizer σ} {lines : LineTable} {run : Option Nat}
    {width : Nat} {c : Char} {r : Bool}
    (h : Treated (t.tracked lines run) t.position width c r u) (hwidth : 0 < width) :
    (u.passedOver (width - 1)).position = t.position + width := by
  have hposition : u.position = t.position + 1 := h.frame.1
  show u.position + (width - 1) = _
  omega

/-- So the tokenizer stands behind the text read and the character. -/
theorem Treated.position_snoc {u : Tokenizer σ} {lines : LineTable} {run : Option Nat}
    {e : Encoding} {c d : Char} {r : Bool} {o : Nat} {read : List Char}
    (h : Treated (t.tracked lines run) t.position (e.unitLen c) d r u)
    (hposition : t.position = o + e.size read) :
    (u.passedOver (e.unitLen c - 1)).position = o + e.size (read ++ [c]) := by
  rw [h.position_passedOver (e.unitLen_pos c), hposition, e.add_size_snoc]

theorem signature_passedOver_of_live (n : Nat) (h : t.active ≠ []) :
    (t.passedOver n).signature = t.signature := by
  simp [passedOver, h]

end Tokenizer

open Tokenizer

/-- A search passes over units that lead nothing. -/
theorem Searched.passedOver {t v : Tokenizer σ} {skipped rest : List UInt32}
    (h : Searched t (skipped ++ rest) v)
    (hskipped : ∀ u ∈ skipped, t.encoding.glyphUnits u = 0) :
    Searched (t.passedOver skipped.length) rest v := by
  induction skipped generalizing t with
  | nil => rwa [List.length_nil, passedOver_zero]
  | cons u skipped ih =>
    obtain ⟨hu, hskipped⟩ := List.forall_mem_cons.1 hskipped
    rw [List.cons_append] at h
    rw [List.length_cons, ← step_passedOver]
    cases h with
    | ready hfed =>
      cases hfed with
      | led hunit => exact absurd hu hunit
    | onward hfed hrest =>
      cases hfed with
      | led hunit => exact absurd hu hunit
      | passed => exact ih hrest hskipped

/-- **A search by characters.** -/
inductive SearchedText : Tokenizer σ → List Char → Tokenizer σ → Prop
  /-- the text is used up -/
  | finished (t : Tokenizer σ) : SearchedText t [] t.finished
  /-- lexemes are ready -/
  | ready {t v : Tokenizer σ} {c : Char} {rest : List Char} (lines : LineTable)
    (run : Option Nat)
    (hlines : t.step.trackLines t.position (toAscii c) = .ok (t.tracked lines run))
    (htreated : Treated (t.tracked lines run) t.position (t.encoding.unitLen c) (toAscii c) true
      v) :
    SearchedText t (c :: rest) v
  /-- the search goes on behind the glyph of the character -/
  | onward {t u v : Tokenizer σ} {c : Char} {rest : List Char} (lines : LineTable)
    (run : Option Nat)
    (hlines : t.step.trackLines t.position (toAscii c) = .ok (t.tracked lines run))
    (htreated : Treated (t.tracked lines run) t.position (t.encoding.unitLen c) (toAscii c) false u)
    (hrest : SearchedText (u.passedOver (t.encoding.unitLen c - 1)) rest v) :
    SearchedText t (c :: rest) v

/-- **On the units of a text a search goes by characters.** -/
theorem Searched.text {t v : Tokenizer σ} {e : Encoding} (he : t.encoding = e) (text : List Char)
    (h : Searched t (text.flatMap e.encodeChar) v) : SearchedText t text v := by
  induction text generalizing t with
  | nil =>
    cases h with
    | finished => exact .finished t
  | cons c text ih =>
    subst he
    -- the lead unit brings the character, the other units of its glyph nothing
    obtain ⟨lead, conts, hunits, hlead, hlength, hconts⟩ := t.encoding.exists_glyph c
    rw [List.flatMap_cons, hunits, List.cons_append] at h
    have hwidth := hlead.glyphUnits_eq
    have hpos := t.encoding.unitLen_pos c
    cases h with
    | ready hfed =>
      cases hfed with
      | led _ lines run hlines _ _ htreated =>
        rw [hlead.leadToChar_eq] at htreated hlines
        rw [hwidth] at htreated
        exact .ready lines run hlines htreated
    | @onward _ u _ _ _ hfed hrest =>
      have hsame : u.encoding = t.encoding := hfed.setupAs.encoding
      cases hfed with
      | passed hunit => omega
      | led _ lines run hlines _ _ htreated =>
        rw [hlead.leadToChar_eq] at htreated hlines
        rw [hwidth] at htreated
        refine .onward lines run hlines htreated ?_
        rw [← hlength]
        exact ih hsame (hrest.passedOver (by rwa [hsame]))

end Lexing
