import Lexing.Extract
import Lexing.Proofs.Token.Run

/-!
# Extracting a whole text

Where a token accepts a text of ASCII characters from end to end, extraction
gives the whole text as one lexeme (`extract_eq_of_run`). In every encoding
such a text takes one unit for each character.
-/

namespace Lexing

/-- A text that tokens see as it is. -/
def IsAscii (text : List Char) : Prop := ∀ c ∈ text, c.toNat < 0x80

instance (text : List Char) : Decidable (IsAscii text) :=
  decidable_of_iff (text.all (·.toNat < 0x80) = true) (by simp [IsAscii])

theorem isAscii_nil : IsAscii [] := fun _ hc => absurd hc List.not_mem_nil

theorem isAscii_cons {c : Char} {text : List Char} :
    IsAscii (c :: text) ↔ c.toNat < 0x80 ∧ IsAscii text :=
  List.forall_mem_cons

theorem isAscii_append {xs ys : List Char} : IsAscii (xs ++ ys) ↔ IsAscii xs ∧ IsAscii ys :=
  List.forall_mem_append

theorem unitLen_of_ascii (e : Encoding) {c : Char} (h : c.toNat < 0x80) : e.unitLen c = 1 := by
  have hval : c.val ≤ 127 := UInt32.le_iff_toNat_le.mpr (Nat.le_of_lt_succ h)
  cases e with
  | utf8 => simp [Encoding.unitLen, Char.utf8Size, hval]
  | utf16 => exact if_pos (Nat.lt_trans h (by decide))
  | utf32 | ascii => rfl

theorem byteLength_of_ascii {text : List Char} (h : IsAscii text) :
    Text.byteLength text = text.length := by
  induction text with
  | nil => rfl
  | cons c text ih =>
    obtain ⟨hc, htext⟩ := isAscii_cons.mp h
    show c.utf8Size + Text.byteLength text = text.length + 1
    rw [ih htext, show c.utf8Size = 1 from unitLen_of_ascii .utf8 hc, Nat.add_comm]

variable {σ : Type} {token : Token σ}

namespace Reading

/-- Noting a lexeme leaves the match as it is. -/
theorem note_eq (token : Token σ) (s : σ) (text : List Char) (stop : Nat)
    (best : Option (Nat × Nat × σ)) :
    ∃ best', note token ⟨s, text, stop, best⟩ = ⟨s, text, stop, best'⟩ := by
  rw [note]
  split
  · exact ⟨_, rfl⟩
  · exact ⟨best, rfl⟩

/-- **A match follows the token through a text that it accepts**, and its last
step notes what the text has come to. -/
theorem run_of_run (e : Encoding) {rest : List Char} (hrest : IsAscii rest) {s s' : σ}
    {seen : List Char} (h : token.run s seen rest = some s') (stop : Nat)
    (best : Option (Nat × Nat × σ)) :
    ∃ best', (note token ⟨s, seen, stop, best⟩).run token e rest
      = note token ⟨s', seen ++ rest, stop + rest.length, best'⟩ := by
  induction rest generalizing s seen stop best with
  | nil =>
    obtain rfl := Option.some.inj h
    exact ⟨best, by rw [run, List.append_nil]; rfl⟩
  | cons c rest ih =>
    obtain ⟨hc, hrest⟩ := isAscii_cons.mp hrest
    obtain ⟨st, hadvance, hrun⟩ := Option.bind_eq_some_iff.mp h
    obtain ⟨noted, hnoted⟩ := note_eq token s seen stop best
    obtain ⟨best', hbest⟩ := ih hrest hrun (stop + 1) noted
    refine ⟨best', ?_⟩
    rw [hnoted, run, toAscii_of_lt hc]
    simp only [hadvance, unitLen_of_ascii e hc]
    rw [hbest, List.append_assoc, List.length_cons, Nat.add_assoc, Nat.add_comm 1]
    rfl

end Reading

/-- **A token that accepts a whole text gives it as one lexeme.** -/
theorem extract_eq_of_run (token : Token σ) (e : Encoding) {reserved : Option Reserved}
    {text : List Char} {s : σ} (htext : IsAscii text)
    (hrun : token.run (token.fresh reserved) [] text = some s)
    (hvalid : token.isValid s text = true) :
    extract token text reserved e
      = .ok ⟨0, text.length, 1, 0, text, token.decode s text, some token.tag⟩ := by
  obtain ⟨best, hbest⟩ := Reading.run_of_run e htext hrun 0 none
  have hread : (Reading.start token reserved).run token e text
      = ⟨s, text, text.length, some (text.length, text.length, s)⟩ := by
    rw [Reading.start, hbest, List.nil_append, Nat.zero_add, Reading.note]
    exact if_pos hvalid
  rw [extract, hread, Reading.lexeme]
  simp only [List.take_length, Token.decode?_eq hvalid]
  rfl

end Lexing
