import Mathlib.Data.List.Induction
import Lexing.Charset.Encoding
import Lexing.Policy
import Lexing.Proofs.Tokenizer.Signature

/-!
# What units bring to tokens

Not every unit brings a character to the tokens: some lead no glyph, and the
characters of others are ignored. What the rest of them bring, each at its
offset, is what a tokenizer hears of the units (`heard`).
-/

namespace Lexing

variable {e : Encoding} {P : PolicyTable} {o : Nat} {u : UInt32} {units : List UInt32}

/-- A unit that brings no character to the tokens: it leads no glyph, or its
character is ignored. -/
def Silent (e : Encoding) (P : PolicyTable) (u : UInt32) : Prop :=
  e.glyphUnits u = 0 ∨ (P.get (leadToChar u)).ignore = true

instance : Decidable (Silent e P u) := inferInstanceAs (Decidable (_ ∨ _))

/-- A unit that may stand between lexemes. -/
def Passes (e : Encoding) (P : PolicyTable) (u : UInt32) : Prop :=
  Silent e P u ∨ (P.get (leadToChar u)).trim = true

/-- The characters that units bring to the tokens, where the first unit stands
at an offset. -/
def heard (e : Encoding) (P : PolicyTable) (o : Nat) : List UInt32 → Signature
  | [] => []
  | u :: units =>
    if Silent e P u then heard e P (o + 1) units
    else (leadToChar u, o) :: heard e P (o + 1) units

theorem heard_cons_of_silent (h : Silent e P u) (units : List UInt32) :
    heard e P o (u :: units) = heard e P (o + 1) units := by
  rw [heard, if_pos h]

theorem heard_cons_of_not_silent (h : ¬Silent e P u) (units : List UInt32) :
    heard e P o (u :: units) = (leadToChar u, o) :: heard e P (o + 1) units := by
  rw [heard, if_neg h]

theorem heard_append (xs ys : List UInt32) :
    heard e P o (xs ++ ys) = heard e P o xs ++ heard e P (o + xs.length) ys := by
  induction xs generalizing o with
  | nil => rfl
  | cons u xs ih =>
    have hnext : o + (u :: xs).length = o + 1 + xs.length := by
      rw [List.length_cons]
      omega
    rw [List.cons_append, hnext]
    by_cases h : Silent e P u
    · rw [heard_cons_of_silent h, heard_cons_of_silent h, ih]
    · rw [heard_cons_of_not_silent h, heard_cons_of_not_silent h, ih, List.cons_append]

theorem heard_of_silent (h : ∀ u ∈ units, Silent e P u) : heard e P o units = [] := by
  induction units generalizing o with
  | nil => rfl
  | cons u units ih =>
    obtain ⟨hu, hunits⟩ := List.forall_mem_cons.1 h
    rw [heard_cons_of_silent hu, ih hunits]

/-- A silent unit changes nothing. -/
theorem heard_snoc_of_silent (h : Silent e P u) (units : List UInt32) :
    heard e P o (units ++ [u]) = heard e P o units := by
  rw [heard_append, heard_cons_of_silent h, heard, List.append_nil]

theorem heard_snoc_of_not_silent (h : ¬Silent e P u) (units : List UInt32) :
    heard e P o (units ++ [u]) = heard e P o units ++ [(leadToChar u, o + units.length)] := by
  rw [heard_append, heard_cons_of_not_silent h, heard]

/-- **What is heard are the units that are not silent**, at their offsets. -/
theorem mem_heard {x : Char × Nat} : x ∈ heard e P o units ↔
    ∃ front u back, units = front ++ u :: back ∧ ¬Silent e P u ∧
      x = (leadToChar u, o + front.length) := by
  induction units generalizing o with
  | nil => simp [heard]
  | cons v units ih =>
    have hlater : x ∈ heard e P (o + 1) units ↔ ∃ front u back,
        v :: units = v :: front ++ u :: back ∧ ¬Silent e P u ∧
          x = (leadToChar u, o + (v :: front).length) := by
      simp only [ih, List.cons_append, List.cons.injEq, true_and, List.length_cons,
        Nat.add_comm, Nat.add_left_comm]
    constructor
    · intro hx
      by_cases hv : Silent e P v
      · rw [heard_cons_of_silent hv, hlater] at hx
        obtain ⟨front, hfront⟩ := hx
        exact ⟨v :: front, hfront⟩
      · rw [heard_cons_of_not_silent hv] at hx
        obtain rfl | hx := List.mem_cons.1 hx
        · exact ⟨[], v, units, rfl, hv, rfl⟩
        · obtain ⟨front, hfront⟩ := hlater.1 hx
          exact ⟨v :: front, hfront⟩
    · rintro ⟨front, u, back, hsplit, hu, rfl⟩
      cases front with
      | nil =>
        obtain ⟨rfl, rfl⟩ := List.cons.inj hsplit
        rw [heard_cons_of_not_silent hu]
        exact List.mem_cons_self
      | cons w front =>
        obtain ⟨rfl, -⟩ := List.cons.inj hsplit
        have hmem := hlater.2 ⟨front, u, back, hsplit, hu, rfl⟩
        by_cases hv : Silent e P v
        · rwa [heard_cons_of_silent hv]
        · rw [heard_cons_of_not_silent hv]
          exact List.mem_cons_of_mem _ hmem

/-- Units are heard in order, each at its own offset. -/
theorem within_heard (e : Encoding) (P : PolicyTable) (o : Nat) (units : List UInt32) :
    (heard e P o units).Within o (o + units.length) := by
  induction units using List.reverseRecOn with
  | nil => exact Signature.within_nil _ _
  | append_singleton units u ih =>
    rw [List.length_append, List.length_singleton, ← Nat.add_assoc]
    by_cases h : Silent e P u
    · rw [heard_snoc_of_silent h]
      exact ih.mono (Nat.le_succ _)
    · rw [heard_snoc_of_not_silent h]
      exact ih.snoc _ (Nat.le_add_right _ _)

/-- A place in what is heard is a place between two units: those before it
bring what stands up to there, and it stands where they end. -/
theorem exists_cut_heard (e : Encoding) (P : PolicyTable) (o : Nat) (units : List UInt32) {n : Nat}
    (hn : n ≤ (heard e P o units).length) :
    ∃ front back, units = front ++ back ∧ heard e P o front = (heard e P o units).take n ∧
      (heard e P o units).boundary (o + units.length) n = o + front.length := by
  induction units generalizing o n with
  | nil =>
    obtain rfl : n = 0 := Nat.le_zero.1 hn
    exact ⟨[], [], rfl, rfl, rfl⟩
  | cons u units ih =>
    have hnext (us : List UInt32) : o + (u :: us).length = o + 1 + us.length := by
      rw [List.length_cons]
      omega
    by_cases h : Silent e P u
    · rw [heard_cons_of_silent h] at hn ⊢
      obtain ⟨front, back, rfl, hfront, hstop⟩ := ih (o + 1) hn
      exact ⟨u :: front, back, rfl, (heard_cons_of_silent h front).trans hfront,
        by rw [hnext, hnext, hstop]⟩
    · rw [heard_cons_of_not_silent h] at hn ⊢
      cases n with
      | zero => exact ⟨[], u :: units, rfl, rfl, rfl⟩
      | succ n =>
        obtain ⟨front, back, rfl, hfront, hstop⟩ := ih (o + 1) (Nat.le_of_succ_le_succ hn)
        refine ⟨u :: front, back, rfl, ?_, ?_⟩
        · rw [heard_cons_of_not_silent h, hfront, List.take_succ_cons]
        · rw [hnext, hnext, ← hstop]
          rfl

end Lexing
